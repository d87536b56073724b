/-!
Sets of characters, written as ranges of code points in ascending order.
-/

namespace Marmoset.Text

-- The first and the last code point of each range.
abbrev Ranges := List (Nat × Nat)

namespace Ranges

-- Ranges are disjoint and ascend, so the search ends at the first one that begins past `c`.
def contains : Ranges → Char → Bool
  | [], _ => false
  | (first, last) :: rest, c =>
    if c.toNat < first then false
    else if c.toNat ≤ last then true
    else contains rest c

@[simp]
theorem contains_nil (c : Char) : contains [] c = false :=
  rfl

theorem exists_range_of_contains {rs : Ranges} {c : Char} (h : rs.contains c) :
    ∃ r ∈ rs, r.1 ≤ c.toNat ∧ c.toNat ≤ r.2 := by
  induction rs with
  | nil => simp at h
  | cons r rest ih =>
    obtain ⟨first, last⟩ := r
    simp only [contains] at h
    split at h
    · contradiction
    · split at h
      · exact ⟨_, List.mem_cons_self, by omega, by omega⟩
      · obtain ⟨r, hr, hc⟩ := ih h
        exact ⟨r, List.mem_cons_of_mem _ hr, hc⟩

end Ranges

end Marmoset.Text
