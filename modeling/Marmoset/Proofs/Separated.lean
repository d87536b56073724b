import Marmoset.Proofs.Tiling

/-!
Tokens that are written one after another with something blank between them are read back
(`ofSource_spaced`). What is read is told by tilings: the printed text of a token spells it in front
of every separator.
-/

namespace Marmoset

-- What keeps two tokens apart: blanks and comments, of which a blank comes first.
inductive Separator : List Char → Prop
  | mk : Text.isBlank c → Trivia cs → Separator (c :: cs)

-- The text consists of the printed tokens and of separators between them.
inductive Spaced : List Lexeme → List Char → Prop
  | nil : Spaced [] []
  | single (x : Lexeme) : Spaced [x] (toString x).toList
  | cons (x : Lexeme) : Separator gap → Spaced (y :: xs) cs →
    Spaced (x :: y :: xs) ((toString x).toList ++ (gap ++ cs))

-- The text ends, or goes on with a blank.
def Parted (cs : List Char) : Prop :=
  ∀ c ∈ cs.head?, Text.isBlank c

section

variable {text rest gap cs : List Char} {x : Lexeme}

theorem Separator.parted (h : Separator gap) (cs : List Char) : Parted (gap ++ cs) := by
  cases h
  case mk hc _ =>
    rintro _ ⟨⟩
    exact hc

theorem Separator.trivia (h : Separator gap) : Trivia gap := by
  cases h
  case mk hc ht => exact .blank hc ht

namespace Parted

theorem breaks (h : Parted rest) : Breaks rest :=
  fun c hc => isWordChar_of_isBlank (h c hc)

theorem isDigit_eq_false (h : Parted rest) : ∀ c ∈ rest.head?, c.isDigit = false := by
  intro c hc
  refine Bool.eq_false_iff.mpr fun hd => ?_
  have ⟨_, _, hb, _⟩ := isDigit_class hd
  exact Bool.eq_false_iff.mp hb (h c hc)

theorem head?_ne {c : Char} (h : Parted rest) (hc : Text.isBlank c = false) :
    rest.head? ≠ some c :=
  fun hr => Bool.eq_false_iff.mp hc (h c hr)

end Parted

-- However a token has been spelled, it is spelled by its printed text in front of a blank.
theorem Spells.printed (h : Spells text rest x) (hx : x.kind ≠ .illegal) (hc : Parted cs) :
    Spells (toString x).toList cs x := by
  cases h
  case symbol y _ _ =>
    exact .symbol y (fun _ => hc.head?_ne (by decide)) fun _ => hc.head?_ne (by decide)
  case keyword k _ => exact .keyword k hc.breaks
  case ident c ds hs hw hk _ =>
    have ht : (toString (Lexeme.ident (String.ofList (c :: ds)))).toList = c :: ds :=
      String.toList_ofList
    rw [ht]
    exact .ident hs hw hk hc.breaks
  case int ds c hs hd _ =>
    have ht : (toString (Lexeme.int (String.ofList (c :: ds)))).toList = c :: ds :=
      String.toList_ofList
    rw [ht]
    exact .int hs hd hc.isDigit_eq_false
  case string contents hd =>
    have ht : (toString (Lexeme.string (String.ofList contents))).toList =
        '"' :: (contents.flatMap Text.escapeChar ++ ['"']) := by
      simp [toString, Lexeme.toString, Text.literal, Text.escape]
    rw [ht]
    exact .string (decodes_escape contents)
  case unterminated => exact absurd rfl hx
  case stray => exact absurd rfl hx

end

theorem exists_spells_of_mem {source : String} {t : Token}
    (h : t ∈ (TokenStream.ofSource source).toList) (hk : t.kind ≠ .eof) :
    ∃ text rest, Spells text rest t.lexeme := by
  obtain h | h := List.mem_append.mp h
  case inl => exact (tiles_scan [] source.toList).spelled t h
  case inr =>
    obtain rfl := List.mem_singleton.mp h
    exact absurd rfl hk

-- A text of printed tokens is tiled by these tokens. A separator is part of the tile of the token
-- behind it, so that the text is taken with the gap in front of it.
theorem Spaced.tiles {xs : List Lexeme} {cs gap : List Char} (h : Spaced xs cs) (hg : Trivia gap)
    (hx : ∀ x ∈ xs, ∃ text rest, Spells text rest x) (hk : ∀ x ∈ xs, x.kind ≠ .illegal)
    (before : List Char) :
    ∃ ts : List Token, Tiles before (gap ++ cs) ts ∧ ts.map (·.lexeme) = xs := by
  induction h generalizing before gap
  case nil => exact ⟨[], .stop (.closed (by rwa [List.append_nil])), rfl⟩
  case single x =>
    obtain ⟨text, rest, hx⟩ := hx x List.mem_cons_self
    have hp : Spells (toString x).toList [] x := hx.printed (hk x List.mem_cons_self) nofun
    have ht : Tiles before (gap ++ (toString x).toList ++ []) _ :=
      .token hg hp (.stop (.closed .nil))
    rw [List.append_nil] at ht
    exact ⟨_, ht, rfl⟩
  case cons sep y xs cs x hs _ hi =>
    obtain ⟨⟨text, rest, hx⟩, hxs⟩ := List.forall_mem_cons.mp hx
    obtain ⟨hk, hks⟩ := List.forall_mem_cons.mp hk
    have hp := hx.printed hk (hs.parted cs)
    obtain ⟨ts, ht, hl⟩ := hi hs.trivia hxs hks (before ++ gap ++ (toString x).toList)
    have ht := Tiles.token hg hp ht
    rw [List.append_assoc] at ht
    exact ⟨_, ht, congrArg (x :: ·) hl⟩

-- Tokens that source texts have been read as, none of them illegal, are read back from every text
-- in which they are printed in that order with separators between them.
theorem ofSource_spaced {xs : List Lexeme} {source : String}
    (hx : ∀ x ∈ xs, ∃ origin, ∃ t ∈ (TokenStream.ofSource origin).toList, t.lexeme = x)
    (hk : ∀ x ∈ xs, x.kind ≠ .illegal ∧ x.kind ≠ .eof) (h : Spaced xs source.toList) :
    (TokenStream.ofSource source).toList.map (·.lexeme) = xs ++ [.eof] := by
  have hs : ∀ x ∈ xs, ∃ text rest, Spells text rest x := by
    intro x hm
    obtain ⟨origin, t, ht, rfl⟩ := hx x hm
    exact exists_spells_of_mem ht (hk _ hm).right
  obtain ⟨ts, ht, hl⟩ := h.tiles .nil hs (fun x hm => (hk x hm).left) []
  have he : ts = (TokenStream.ofSource source).pending := ht.eq_scan
  rw [TokenStream.toList, List.map_append, ← he, hl]
  rfl

-- A string literal with a quote, an escape and a line end in it, a division, and a number, with a
-- comment between each two of them.
theorem ofSource_spaced_quotient :
    let xs : List Lexeme := [.string "\"\\n\n", .symbol .slash, .int "007"]
    let source := "\"\\\"\\\\n\\n\" //\"\n/\t//1\n\n007"
    (∀ x ∈ xs, ∃ origin, ∃ t ∈ (TokenStream.ofSource origin).toList, t.lexeme = x) ∧
    (∀ x ∈ xs, x.kind ≠ .illegal ∧ x.kind ≠ .eof) ∧ Spaced xs source.toList ∧
    (TokenStream.ofSource source).toList.map (·.lexeme) = xs ++ [.eof] := by
  intro xs source
  have hx : ∀ x ∈ xs, ∃ origin, ∃ t ∈ (TokenStream.ofSource origin).toList, t.lexeme = x := by
    have ho : ∀ x ∈ xs, x ∈ (TokenStream.ofSource source).toList.map (·.lexeme) := by
      decide +kernel
    exact fun x hm => ⟨source, List.mem_map.mp (ho x hm)⟩
  have hk : ∀ x ∈ xs, x.kind ≠ .illegal ∧ x.kind ≠ .eof := by decide
  have hs : Spaced xs source.toList := by
    have hf : Separator [' ', '/', '/', '"', '\n'] :=
      .mk (by decide) (@Trivia.comment ['"'] [] (by decide) .nil)
    have hg : Separator ['\t', '/', '/', '1', '\n', '\n'] :=
      .mk (by decide) (@Trivia.comment ['1'] ['\n'] (by decide) (.blank (by decide) .nil))
    have he : source.toList = (toString (Lexeme.string "\"\\n\n")).toList ++
        ([' ', '/', '/', '"', '\n'] ++ ((toString (Lexeme.symbol .slash)).toList ++
        (['\t', '/', '/', '1', '\n', '\n'] ++ (toString (Lexeme.int "007")).toList))) := by
      decide +kernel
    rw [he]
    exact .cons _ hf (.cons _ hg (.single _))
  exact ⟨hx, hk, hs, ofSource_spaced hx hk hs⟩

end Marmoset
