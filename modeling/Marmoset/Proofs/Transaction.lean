import Marmoset.Proofs.Data
import Marmoset.Proofs.LineByLine

/-!
The buffer of a session is a transaction log. A line either waits in it and has no other effect, or
is run once with all that waits and leaves it empty; so at any time what has been run and what waits
are the lines that were pushed (`feed_transactional`).
-/

namespace Marmoset

namespace Repl

variable {frames : Nat} {r : Repl} {source l : String} {ls : List String}

-- What running a text may come to.
inductive Outcome (frames : Nat) (r : Repl) (source : String) : Reply × Repl → Prop
  | waits (rs : List Recovery) : source.toList.getLast? ≠ some '\n' →
    Outcome frames r source (⟨.ok true, "", rs⟩, r)
  | reports (rs : List Recovery) : r.mode ≠ .tokens → (parse frames source).errors ≠ [] →
    Outcome frames r source (⟨.ok false, errorReport (parse frames source).errors, rs⟩, r)
  | shows (output : String) (rs : List Recovery) :
    r.mode = .tokens ∨ (parse frames source).errors = [] →
    Outcome frames r source (⟨.ok false, output, rs⟩, r)
  | evaluates (output : String) (rs : List Recovery) : (parse frames source).errors = [] →
    m.Sound → Outcome frames r source (⟨.ok false, output, rs⟩, { r with machine := m })
  -- Only a program that is shown can be too deep for that.
  | overflows (rs : List Recovery) : r.mode = .ast →
    (parse frames source).program.source? frames = none →
    Outcome frames r source (⟨.error .tooDeep, "", rs⟩, r)

theorem run_outcome (frames : Nat) (source : String) (hs : r.machine.Sound) :
    r.Outcome frames source (r.run frames source) := by
  unfold run
  split
  case h_1 ht => exact .shows _ _ (.inl ht)
  case h_2 ht =>
    dsimp only
    by_cases hp : (parse frames source).recoveries = []
    case neg =>
      rw [if_pos hp]
      by_cases hn : source.toList.getLast? = some '\n'
      case pos =>
        rw [if_pos hn]
        exact .reports _ ht (mt List.map_eq_nil_iff.mp hp)
      case neg =>
        rw [if_neg hn]
        exact .waits _ hn
    case pos =>
      have he : (parse frames source).errors = [] := List.map_eq_nil_iff.mpr hp
      rw [if_neg (not_not_intro hp)]
      by_cases hg : mayGoOn source
      case pos =>
        rw [if_pos hg]
        exact .waits _ fun hn => by simp [mayGoOn, hn] at hg
      case neg =>
        rw [if_neg hg]
        by_cases hm : r.mode = .ast
        case pos =>
          rw [if_pos hm]
          split
          case h_1 => exact .shows _ _ (.inr he)
          case h_2 ho => exact .overflows _ hm ho
        case neg =>
          obtain ⟨v, m, hv, hs, -⟩ := (parse frames source).program.eval_sound frames r.scope hs
          rw [if_neg hm, hv]
          exact .evaluates _ _ he hs

-- What waits is not looked at.
theorem run_buffer (frames : Nat) (r : Repl) (b : List String) (source : String) :
    run frames { r with buffer := b } source =
      ((r.run frames source).1, { (r.run frames source).2 with buffer := b }) := by
  unfold run
  dsimp only
  repeat' split
  all_goals rfl

-- Whether all that was pending has been run.
def Reply.isDone (a : Reply) : Bool :=
  match a.more with
  | .ok false => true
  | _ => false

theorem push_eq (frames : Nat) (r : Repl) (l : String) :
    r.push frames l =
      ((r.run frames (r.pending l)).1, { (r.run frames (r.pending l)).2 with
        buffer := if (r.run frames (r.pending l)).1.isDone then [] else r.buffer ++ [l] }) := by
  unfold push
  dsimp only
  rw [run_buffer, ← pending]
  generalize r.run frames (r.pending l) = x
  obtain ⟨⟨more, _, _⟩, _⟩ := x
  cases more
  case error => rfl
  case ok b => cases b <;> rfl

-- The lines that are run together, in order.
def chunks (frames : Nat) : Repl → List String → List (List String)
  | _, [] => []
  | r, l :: ls =>
    let (a, r') := r.push frames l
    if a.isDone then (r.buffer ++ [l]) :: chunks frames r' ls else chunks frames r' ls

-- Runs chunks one after another, without regard to the buffer.
def runAll (frames : Nat) : Repl → List (List String) → List Reply × Repl
  | r, [] => ([], r)
  | r, c :: cs =>
    let (a, r) := r.run frames ("\n".intercalate c)
    let (as, r) := runAll frames r cs
    (a :: as, r)

theorem runAll_buffer (frames : Nat) (r : Repl) (b : List String) (cs : List (List String)) :
    runAll frames { r with buffer := b } cs =
      ((runAll frames r cs).1, { (runAll frames r cs).2 with buffer := b }) := by
  induction cs generalizing r
  case nil => rfl
  case cons c cs hi => simp only [runAll, run_buffer, hi]

-- What has been run and what waits are the lines that were pushed, and all that has come of them
-- is what comes of running the chunks, each of them once.
structure Accounts (frames : Nat) (r : Repl) (ls : List String) : Prop where
  lines : (chunks frames r ls).flatten ++ (feed frames r ls).2.buffer = r.buffer ++ ls
  replies : (feed frames r ls).1.filter (·.isDone) = (runAll frames r (chunks frames r ls)).1
  state : (feed frames r ls).2 =
    { (runAll frames r (chunks frames r ls)).2 with buffer := (feed frames r ls).2.buffer }

theorem run_sound (frames : Nat) (hs : r.machine.Sound) (source : String) :
    (r.run frames source).2.machine.Sound ∧ (r.run frames source).2.mode = r.mode := by
  have ho := run_outcome frames source hs
  generalize r.run frames source = x at ho
  cases ho
  case evaluates hm => exact ⟨hm, rfl⟩
  all_goals exact ⟨hs, rfl⟩

theorem push_sound (frames : Nat) (hs : r.machine.Sound) (l : String) :
    (r.push frames l).2.machine.Sound ∧ (r.push frames l).2.mode = r.mode := by
  rw [push_eq]
  exact run_sound frames hs (r.pending l)

-- A text that is not done with has had no effect.
theorem run_of_not_isDone (hs : r.machine.Sound) (h : (r.run frames source).1.isDone = false) :
    (r.run frames source).2 = r := by
  have ho := run_outcome frames source hs
  generalize r.run frames source = x at ho h
  cases ho
  case evaluates => cases h
  all_goals rfl

theorem accounts (frames : Nat) (hs : r.machine.Sound) (ls : List String) :
    r.Accounts frames ls := by
  induction ls generalizing r
  case nil => exact ⟨by simp [chunks, feed], rfl, rfl⟩
  case cons l ls hi =>
    have ⟨hl, hr, hf⟩ := hi (push_sound frames hs l).left
    have hp := push_eq frames r l
    cases hd : (r.run frames (r.pending l)).1.isDone
    case false =>
      rw [run_of_not_isDone hs hd, hd] at hp
      rw [hp] at hl hr hf
      constructor <;> simp only [chunks, feed, hp, hd]
      case lines => simpa using hl
      case replies => simpa [hd, runAll_buffer] using hr
      case state => simpa [runAll_buffer] using hf
    case true =>
      rw [hd] at hp
      rw [hp] at hl hr hf
      rw [runAll_buffer] at hr hf
      constructor <;> simp only [chunks, feed, hp, hd, if_true]
      case lines => simpa using hl
      case replies => exact (List.filter_cons_of_pos hd).trans (congrArg _ hr)
      case state => exact hf

-- What pushing a line comes to, where nothing that is shown is too deep for that.
structure Commits (frames : Nat) (r : Repl) (l : String) : Prop where
  answers : (r.push frames l).1.more = .ok true ∨ (r.push frames l).1.more = .ok false
  waits : (r.push frames l).1.more = .ok true → (r.push frames l).1.output = "" ∧
    (r.push frames l).2 = { r with buffer := r.buffer ++ [l] }
  empties : (r.push frames l).1.more = .ok false → (r.push frames l).2.buffer = []
  reports : r.mode ≠ .tokens → (parse frames (r.pending l)).errors ≠ [] →
    (r.push frames l).1.more = .ok false →
      (r.push frames l).1.output = errorReport (parse frames (r.pending l)).errors ∧
        (r.push frames l).2 = { r with buffer := [] }
  flushes : l = "" → r.buffer ≠ [] → (r.push frames l).1.more = .ok false

theorem getLast?_pending_empty (h : r.buffer ≠ []) :
    (r.pending "").toList.getLast? = some '\n' := by
  rw [pending, String.intercalate_append_of_ne_nil h (by simp)]
  simp

theorem commits (hs : r.machine.Sound)
    (h : r.mode = .ast → ((parse frames (r.pending l)).program.source? frames).isSome) :
    r.Commits frames l := by
  have ho := run_outcome frames (r.pending l) hs
  have hp := push_eq frames r l
  generalize r.run frames (r.pending l) = x at ho hp
  cases ho
  case waits hn =>
    constructor
    case flushes => exact fun he hb => absurd (getLast?_pending_empty hb) (he ▸ hn)
    all_goals simp [hp, Reply.isDone]
  case overflows hm ho => exact absurd (h hm) (by simp [ho])
  all_goals
    constructor
    case reports => intros; simp_all [Reply.isDone]
    all_goals simp [hp, Reply.isDone]

theorem feed_sound (frames : Nat) (hs : r.machine.Sound) (ls : List String) :
    (feed frames r ls).2.machine.Sound ∧ (feed frames r ls).2.mode = r.mode := by
  induction ls generalizing r
  case nil => exact ⟨hs, rfl⟩
  case cons l ls hi =>
    have ⟨hp, hm⟩ := push_sound frames hs l
    exact ⟨(hi hp).left, (hi hp).right.trans hm⟩

-- Whatever has been pushed, no line of it is lost or run twice, and the next line waits or is run
-- with all that waits. An empty line is always enough to have that run.
theorem feed_transactional (frames : Nat) (mode : Mode) (earlier : List String) (line : String)
    (h : mode = .ast →
      let r := (feed frames (start mode) earlier).2
      ((parse frames (r.pending line)).program.source? frames).isSome) :
    (start mode).Accounts frames earlier ∧
      (feed frames (start mode) earlier).2.Commits frames line :=
  have hs : (start mode).machine.Sound := (Session.start_admits .free).sound
  have ⟨hf, hm⟩ := feed_sound frames hs earlier
  ⟨accounts frames hs earlier, commits hf fun ha => h (hm.symm.trans ha)⟩

-- A string that is never closed takes in the lines behind it until one of them is empty.
theorem feed_transactional_unclosed :
    let ls := ["let x = 1;", "\"a", "b;"]
    let r := (feed defaultFrames (start .ast) ls).2
    chunks defaultFrames (start .ast) ls = [["let x = 1;"]] ∧ r.buffer = ["\"a", "b;"] ∧
      (r.push defaultFrames "").1.more = .ok false ∧
      (r.push defaultFrames "").2 = { r with buffer := [] } := by
  intro ls r
  have hr : ((parse defaultFrames (r.pending "")).program.source? defaultFrames).isSome := by
    decide +kernel
  have ⟨_, hc⟩ := feed_transactional defaultFrames .ast ls "" fun _ => hr
  have hb : r.buffer = ["\"a", "b;"] := by decide +kernel
  have he : (parse defaultFrames (r.pending "")).errors ≠ [] := by decide +kernel
  have hm : r.mode ≠ .tokens := by decide +kernel
  have hd := hc.flushes rfl (by simp [r, hb])
  exact ⟨by decide +kernel, hb, hd, (hc.reports hm he hd).right⟩

end Repl

end Marmoset
