import Marmoset.Proofs.Chunk
import Marmoset.Repl

/-!
A program that is pushed line by line. The session only runs what is pending where its last line
ends in the semicolon of a statement, so what it runs are the statements of the program in turn.
-/

namespace Marmoset

open Eval

-- The machine as it is but for places in the source.
abbrev Machine.unplaced (m : Machine) : Machine :=
  m.relocate fun _ => .start

-- What the machine has ahead of it: a text without errors, in which no comment looks as if it
-- ended a statement, and of which the statements take the machine to `goal`, but for places.
structure Ahead (frames : Nat) (s : Scope) (text : String) (m goal : Machine) : Prop where
  read : (parse frames text).recoveries = []
  comments : ∀ c ∈ comments text.toList, lastInk c ≠ some ';'
  run : (complete? frames s (parse frames text).program.statements m).map (·.unplaced) = some goal

namespace Ahead

variable {frames : Nat} {s : Scope} {first second : String} {m goal : Machine}

-- Behind a semicolon that ends a line the text may be cut, if the text up to there is a program.
theorem cut (h : Ahead frames s (first ++ "\n" ++ second) m goal)
    (hf : (parse frames first).recoveries = []) (hi : Text.lastInk? first = some ';') :
    ∃ m', complete? frames s (parse frames first).program.statements m = some m' ∧
      Ahead frames s second m' goal := by
  have hd : Derives .stmts (TokenStream.scan .start first.toList).pending
      (parse frames first).program.statements [] := parse_sound (congrArg (List.map _) hf)
  have hl : (TokenStream.scan .start first.toList).Legal := hd.legal (by simp)
  have ⟨hs, hc⟩ := scan_append .start first.toList second.toList hl
  have htext : (first ++ "\n" ++ second).toList = first.toList ++ '\n' :: second.toList := by simp
  have ⟨hread, hcomments, hrun⟩ := h
  rw [htext, hc] at hcomments
  have ht : Terminated (TokenStream.scan .start first.toList).pending := by
    have ⟨t, ht, hx⟩ := getLast?_scan .start hl (fun c hc => hcomments c (by simp [hc])) hi
    intro u hu
    cases Option.some.inj (ht.symm.trans hu)
    exact hx
  rw [parse, TokenStream.ofSource, htext, hs] at hread hrun
  -- What is read behind the cut is what the second text is read as on its own.
  have ⟨hx, hr⟩ := Parse.ofStream_append hd ht hread
  have ⟨hr, hy⟩ := Parse.ofStream_congr
    (TokenStream.scan_relocate (o := .start) _ .start second.toList) hr
  rw [hx, complete?_append] at hrun
  cases hm : complete? frames s (parse frames first).program.statements m <;> rw [hm] at hrun
  case none => cases hrun
  case some m' =>
    exact ⟨m', rfl, hr, fun c hc => hcomments c (by simp [hc]), (complete?_congr hy).trans hrun⟩

end Ahead

namespace Repl

variable {frames : Nat} {r : Repl} {l : String} {ls : List String} {m goal : Machine}

-- Pushes the lines in order.
def feed (frames : Nat) : Repl → List String → List Reply × Repl
  | r, [] => ([], r)
  | r, l :: ls =>
    let (reply, r) := r.push frames l
    let (replies, r) := feed frames r ls
    (reply :: replies, r)

-- What is pending once the line is there.
def pending (r : Repl) (l : String) : String :=
  "\n".intercalate (r.buffer ++ [l])

section

variable {source : String} (hm : r.mode = .eval)
include hm

-- A text waits for more where it does not read or may go on.
theorem run_of_more (hl : source.toList.getLast? ≠ some '\n')
    (h : (parse frames source).recoveries ≠ [] ∨ mayGoOn source) :
    (r.run frames source).1.more = .ok true ∧ (r.run frames source).2 = r := by
  unfold run
  rw [hm]
  by_cases he : (parse frames source).recoveries = []
  case pos => simp [he, h.resolve_left (not_not_intro he)]
  case neg => simp [he, hl]

theorem run_of_done (h : (parse frames source).recoveries = []) (hg : mayGoOn source = false)
    (hc : complete? frames r.scope (parse frames source).program.statements r.machine = some m) :
    (r.run frames source).1.more = .ok false ∧
      (r.run frames source).2 = { r with machine := m } := by
  have ⟨v, hv⟩ := eval_of_complete? hc
  unfold run
  rw [hm]
  simp [h, hg, hv]

end

theorem push_of_more (hm : r.mode = .eval) (hl : (r.pending l).toList.getLast? ≠ some '\n')
    (h : (parse frames (r.pending l)).recoveries ≠ [] ∨ mayGoOn (r.pending l)) :
    (r.push frames l).2 = { r with buffer := r.buffer ++ [l] } := by
  have ⟨hmore, hr⟩ := run_of_more (r := { r with buffer := r.buffer ++ [l] }) hm hl h
  unfold pending at hmore hr
  simp only [push, hmore, hr]

theorem push_of_done (hm : r.mode = .eval) (h : (parse frames (r.pending l)).recoveries = [])
    (hg : mayGoOn (r.pending l) = false)
    (hc : complete? frames r.scope (parse frames (r.pending l)).program.statements r.machine =
      some m) :
    (r.push frames l).1.more = .ok false ∧
      (r.push frames l).2 = { r with machine := m, buffer := [] } := by
  have ⟨hmore, hr⟩ := run_of_done (r := { r with buffer := r.buffer ++ [l] }) hm h hg hc
  unfold pending at hmore hr
  simp only [push, hmore, hr, and_self]

theorem pending_eq (r : Repl) (l : String) :
    ∃ cs, (r.pending l).toList = cs ++ l.toList := by
  unfold pending
  by_cases hb : r.buffer = []
  case pos =>
    rw [hb]
    exact ⟨[], rfl⟩
  case neg =>
    rw [String.intercalate_append_of_ne_nil hb (by simp), String.toList_append]
    exact ⟨_, rfl⟩

-- Nothing is pending, and the machine is as it should be but for places.
structure Done (frames : Nat) (r : Repl) (ls : List String) (goal : Machine) : Prop where
  reply : ∃ a ∈ (feed frames r ls).1.getLast?, a.more = .ok false
  buffer : (feed frames r ls).2.buffer = []
  scope : (feed frames r ls).2.scope = r.scope
  machine : (feed frames r ls).2.machine.unplaced = goal

theorem Done.cons (h : (r.push frames l).2.Done frames ls goal)
    (hs : (r.push frames l).2.scope = r.scope) : r.Done frames (l :: ls) goal where
  reply := by
    have ⟨a, ha, hm⟩ := h.reply
    refine ⟨a, ?_, hm⟩
    change a ∈ (_ :: (feed frames (r.push frames l).2 ls).1).getLast?
    rw [List.getLast?_cons, ha]
    rfl
  buffer := h.buffer
  scope := h.scope.trans hs
  machine := h.machine

-- Lines that have characters, the last of which is no line end.
abbrev Lines (ls : List String) : Prop :=
  ∀ l ∈ ls, l ≠ "" ∧ l.toList.getLast? ≠ some '\n'

theorem getLast?_pending (h : Lines (l :: ls)) : (r.pending l).toList.getLast? ≠ some '\n' := by
  have ⟨hl, hn⟩ := h l List.mem_cons_self
  have ⟨cs, hp⟩ := r.pending_eq l
  rw [hp, List.getLast?_append]
  cases hc : l.toList.getLast?
  case none => simp at hc; contradiction
  case some c => rwa [hc] at hn

theorem lastInk?_pending (h : Text.lastInk? l = some c) :
    Text.lastInk? (r.pending l) = some c := by
  have ⟨cs, hp⟩ := r.pending_eq l
  change lastInk (r.pending l).toList = some c
  rw [hp, lastInk_append, show lastInk l.toList = some c from h]
  rfl

theorem lastInk?_of_mayGoOn {source : String} (hl : source.toList.getLast? ≠ some '\n')
    (h : mayGoOn source = false) : Text.lastInk? source = some ';' := by
  simpa [mayGoOn, hl] using h

-- Where a session stands before the lines `ls`: what is pending and those lines are ahead of it.
structure Expects (frames : Nat) (r : Repl) (ls : List String) (goal : Machine) : Prop where
  mode : r.mode = .eval
  ahead : Ahead frames r.scope ("\n".intercalate (r.buffer ++ ls)) r.machine goal

namespace Expects

variable (h : r.Expects frames (l :: ls) goal)
include h

theorem ahead_eq (hs : ls ≠ []) :
    Ahead frames r.scope (r.pending l ++ "\n" ++ "\n".intercalate ls) r.machine goal := by
  have hb : r.buffer ++ l :: ls = r.buffer ++ [l] ++ ls := by simp
  have ha := h.ahead
  rwa [hb, String.intercalate_append_of_ne_nil (by simp) hs] at ha

-- A line that is not the last one waits with the others, or all of them are run.
theorem push (hl : Lines (l :: ls)) (hs : ls ≠ []) :
    (r.push frames l).2.Expects frames ls goal ∧ (r.push frames l).2.scope = r.scope := by
  have hn := getLast?_pending (r := r) hl
  by_cases hw : (parse frames (r.pending l)).recoveries ≠ [] ∨ mayGoOn (r.pending l)
  case pos =>
    rw [push_of_more h.mode hn hw]
    refine ⟨⟨h.mode, ?_⟩, rfl⟩
    have ha := h.ahead
    rwa [List.append_cons] at ha
  case neg =>
    obtain ⟨he, hg⟩ := not_or.mp hw
    have he := Decidable.not_not.mp he
    have hg : mayGoOn (r.pending l) = false := by simpa using hg
    have ⟨m, hc, ha⟩ := (h.ahead_eq hs).cut he (lastInk?_of_mayGoOn hn hg)
    have ⟨_, hp⟩ := push_of_done h.mode he hg hc
    rw [hp]
    exact ⟨⟨h.mode, ha⟩, rfl⟩

end Expects

-- The last line ends the text, so it is run with all that is pending.
theorem Expects.last (h : r.Expects frames [l] goal) (hi : Text.lastInk? l = some ';') :
    r.Done frames [l] goal := by
  obtain ⟨m, hc, rfl⟩ := Option.map_eq_some_iff.mp h.ahead.run
  have hg : mayGoOn (r.pending l) = false := by simp [mayGoOn, lastInk?_pending hi]
  have ⟨hd, hr⟩ := push_of_done h.mode h.ahead.read hg hc
  have hf : (feed frames r [l]).2 = { r with machine := m, buffer := [] } := hr
  exact ⟨⟨_, rfl, hd⟩, by rw [hf], by rw [hf], by rw [hf]⟩

theorem Expects.done (h : r.Expects frames ls goal) (hl : Lines ls)
    (hi : ∃ l ∈ ls.getLast?, Text.lastInk? l = some ';') : r.Done frames ls goal := by
  induction ls generalizing r
  case nil => simp at hi
  case cons l ls hn =>
    by_cases hs : ls = []
    case pos =>
      subst hs
      have ⟨_, ht, hi⟩ := hi
      cases ht
      exact h.last hi
    case neg =>
      have ⟨hp, hscope⟩ := h.push hl hs
      rw [List.getLast?_cons_of_ne_nil hs] at hi
      exact .cons (hn hp (fun l hm => hl l (List.mem_cons_of_mem _ hm)) hi) hscope

-- Pushing the lines brings a session to where the whole text brings a fresh machine: the same
-- names have the same values, and the same values have been printed. As no comment ends in a
-- semicolon, the one that is the last ink of the last line is the last token of the text.
theorem feed_lines {frames : Nat} {ls : List String} {m : Machine} (hl : Lines ls)
    (hi : ∃ l ∈ ls.getLast?, Text.lastInk? l = some ';')
    (he : (parse frames ("\n".intercalate ls)).errors = [])
    (hc : ∀ c ∈ comments ("\n".intercalate ls).toList, lastInk c ≠ some ';')
    (hr : complete? frames (Machine.empty.newScope none).1
      (parse frames ("\n".intercalate ls)).program.statements (Machine.empty.newScope none).2 =
        some m) :
    let (replies, r) := feed frames (start .eval) ls
    r.buffer = [] ∧ (∃ reply ∈ replies.getLast?, reply.more = .ok false) ∧
      r.scope = (Machine.empty.newScope none).1 ∧ r.machine.unplaced = m.unplaced := by
  have h : (start .eval).Expects frames ls m.unplaced :=
    ⟨rfl, List.map_eq_nil_iff.mp he, hc, congrArg _ hr⟩
  have hd := h.done hl hi
  exact ⟨hd.buffer, hd.reply, hd.scope, hd.machine⟩

-- A function over two lines, with a comment behind it, and a call.
def doubling : List String :=
  ["let double = fn(x) \x7b", "  x + x; \x7d; // twice", "puts(double(2));"]

theorem feed_doubling : ∃ m,
    complete? defaultFrames (Machine.empty.newScope none).1
      (parse defaultFrames ("\n".intercalate doubling)).program.statements
      (Machine.empty.newScope none).2 = some m ∧
    m.printed.map (·.display) = #["4"] ∧
    let (replies, r) := feed defaultFrames (start .eval) doubling
    r.buffer = [] ∧ (∃ reply ∈ replies.getLast?, reply.more = .ok false) ∧
      r.scope = (Machine.empty.newScope none).1 ∧ r.machine.unplaced = m.unplaced := by
  have hr : (complete? defaultFrames (Machine.empty.newScope none).1
      (parse defaultFrames ("\n".intercalate doubling)).program.statements
      (Machine.empty.newScope none).2).map (·.printed.map (·.display)) = some #["4"] := by
    decide +kernel
  have ⟨m, hr, hp⟩ := Option.map_eq_some_iff.mp hr
  have hi : ∃ l ∈ doubling.getLast?, Text.lastInk? l = some ';' := ⟨_, rfl, by decide +kernel⟩
  have he : (parse defaultFrames ("\n".intercalate doubling)).errors = [] := by decide +kernel
  have hc : ∀ c ∈ comments ("\n".intercalate doubling).toList, lastInk c ≠ some ';' := by
    decide +kernel
  exact ⟨m, hr, hp, feed_lines (by decide +kernel) hi he hc hr⟩

end Repl

end Marmoset
