import Savefile.Json.Value

/-!
# Members under keys

A value that is put under a key is found there, and nothing changes under other keys. So of pairs
that are put in one after the other the last one with a key counts.
-/
namespace Savefile

variable {α : Type}

theorem lookup_cons_ite (name : String) (pair : String × α) (rest : List (String × α)) :
    (pair :: rest).lookup name = if name = pair.1 then some pair.2 else rest.lookup name := by
  rw [List.lookup_cons]
  by_cases h : name = pair.1
  · rw [if_pos h, beq_iff_eq.mpr h]
  · rw [if_neg h, beq_eq_false_iff_ne.mpr h]

theorem lookup_insertMember (key name : String) (value : α) (members : List (String × α)) :
    (insertMember key value members).lookup name =
      if name = key then some value else members.lookup name := by
  induction members with
  | nil => rw [insertMember, lookup_cons_ite]
  | cons member rest ih =>
    obtain ⟨k, v⟩ := member
    unfold insertMember
    split
    · rename_i hk
      rw [beq_iff_eq.mp hk, lookup_cons_ite, lookup_cons_ite]
      split <;> rfl
    · rename_i hk
      rw [lookup_cons_ite, ih, lookup_cons_ite]
      by_cases h : name = k
      · have hkey : ¬name = key := fun hname => hk (beq_iff_eq.mpr (h.symm.trans hname))
        rw [if_pos h, if_neg hkey, if_pos h]
      · rw [if_neg h, if_neg h]

theorem lookup_foldl_insertMember (name : String) (pairs members : List (String × α)) :
    (pairs.foldl (fun members pair => insertMember pair.1 pair.2 members) members).lookup name =
      (pairs.reverse.lookup name).or (members.lookup name) := by
  induction pairs generalizing members with
  | nil => simp
  | cons pair pairs ih =>
    rw [List.foldl_cons, ih, lookup_insertMember, List.reverse_cons, List.lookup_append,
      Option.or_assoc, lookup_cons_ite]
    split <;> simp

/-- Of pairs with the same key the last one counts. -/
theorem lookup_collectMembers (name : String) (pairs : List (String × α)) :
    (collectMembers pairs).lookup name = pairs.reverse.lookup name := by
  have h := lookup_foldl_insertMember name pairs []
  rwa [List.lookup_nil, Option.or_none] at h

end Savefile
