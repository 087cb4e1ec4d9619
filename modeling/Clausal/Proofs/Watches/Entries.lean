import Clausal.Proofs.Assignment

namespace Clausal

namespace LiteralCode

/-- A code is found by its index. -/
@[simp] theorem ofIndex?_index (code : LiteralCode) : ofIndex? code.index = some code := by
  simp [ofIndex?, code.two_le, code.le_max]

/-- An index stands for the code with that index. -/
theorem ofIndex?_eq_some {index : Nat} {code : LiteralCode} :
    ofIndex? index = some code ↔ code.index = index := by
  constructor
  · intro h
    unfold ofIndex? at h
    split at h
    · cases h
      rfl
    · cases h
  · rintro rfl
    exact ofIndex?_index code

/-- A code is the code of its literal. -/
theorem code_literal (code : LiteralCode) : code.literal.code = code := by
  have htwo := code.two_le
  apply LiteralCode.ext
  unfold Literal.code
  rw [literal, Literal.polarity_literal]
  by_cases heven : code.index % 2 = 0
  · simp [polarity, heven, Variable.literal, var]
    omega
  · simp [polarity, heven, Variable.literal, var]
    omega

end LiteralCode

namespace Literal

/-- A literal is found again by its code. -/
@[simp] theorem literal_code (l : Literal) : l.code.literal = l := by
  have hvar : l.code.var = l.var := by
    apply Variable.ext
    cases hpolarity : l.polarity
    · simp [LiteralCode.var, code, hpolarity, var]
      omega
    · simp [LiteralCode.var, code, hpolarity, var]
  have hcode : l.code.polarity = l.polarity := by
    cases hpolarity : l.polarity <;> simp [LiteralCode.polarity, code, hpolarity]
  rw [LiteralCode.literal, hvar, hcode, literal_var]

/-- There is a bucket for every literal over covered variables. -/
theorem code_index_lt {l : Literal} {numVars : Nat} (h : l.var.id ≤ numVars) :
    l.code.index < LiteralCode.tableLength numVars := by
  have habs : l.value.natAbs ≤ numVars := h
  unfold code LiteralCode.tableLength
  split
  · dsimp only
    omega
  · dsimp only
    omega

end Literal

namespace Watches

/-- The entries that the bucket at one index contributes. -/
private def labelled (clauses : Array Nat) (index : Nat) : List (LiteralCode × Nat) :=
  match LiteralCode.ofIndex? index with
  | none => []
  | some code => clauses.toList.map fun clause => (code, clause)

private theorem entries_eq (w : Watches) :
    w.entries = w.buckets.toList.zipIdx.flatMap fun bucket => labelled bucket.1 bucket.2 := rfl

private theorem labelled_code (clauses : Array Nat) (l : Literal) :
    labelled clauses l.code.index = clauses.toList.map fun clause => (l.code, clause) := by
  simp [labelled]

/-- An entry stands in the bucket of its own code. -/
theorem mem_entries {w : Watches} {code : LiteralCode} {clause : Nat} :
    (code, clause) ∈ w.entries ↔ ∃ bucket, w.buckets[code.index]? = some bucket ∧
      clause ∈ bucket := by
  rw [entries_eq, List.mem_flatMap]
  constructor
  · rintro ⟨⟨bucket, index⟩, hbucket, hmem⟩
    rw [List.mem_zipIdx_iff_getElem?, Array.getElem?_toList] at hbucket
    unfold labelled at hmem
    split at hmem
    · cases hmem
    · rename_i code' hcode
      obtain ⟨clause', hclause', heq⟩ := List.mem_map.mp hmem
      cases heq
      rw [LiteralCode.ofIndex?_eq_some] at hcode
      exact ⟨bucket, by rw [hcode]; exact hbucket, Array.mem_toList_iff.mp hclause'⟩
  · rintro ⟨bucket, hbucket, hclause⟩
    refine ⟨(bucket, code.index), ?_, ?_⟩
    · rw [List.mem_zipIdx_iff_getElem?, Array.getElem?_toList]
      exact hbucket
    · simp [labelled, hclause]

/-- Replacing a bucket leaves those in front of it and behind it in place. -/
private theorem toList_set {buckets : Array (Array Nat)} {index : Nat} (h : index < buckets.size)
    (bucket : Array Nat) :
    ∃ front behind, front.length = index ∧ buckets.toList = front ++ buckets[index] :: behind ∧
      (buckets.set index bucket h).toList = front ++ bucket :: behind := by
  have hlength : index < buckets.toList.length := by simpa using h
  refine ⟨buckets.toList.take index, buckets.toList.drop (index + 1), ?_, ?_, ?_⟩
  · rw [List.length_take]
    omega
  · rw [← Array.getElem_toList, List.getElem_cons_drop, List.take_append_drop]
  · rw [Array.toList_set, List.set_eq_take_append_cons_drop, if_pos hlength]

/-- Replacing a bucket replaces its entries and leaves the others in place. -/
private theorem entries_set {w : Watches} {l : Literal} (h : l.code.index < w.buckets.size)
    (bucket : Array Nat) :
    ∃ before after,
      w.entries = before ++ (w.buckets[l.code.index].toList.map (l.code, ·)) ++ after ∧
      entries ⟨w.buckets.set l.code.index bucket h⟩ =
        before ++ (bucket.toList.map (l.code, ·)) ++ after := by
  obtain ⟨front, behind, hlength, hold, hnew⟩ := toList_set h bucket
  have hindex : 0 + front.length = l.code.index := by omega
  refine ⟨front.zipIdx.flatMap fun b => labelled b.1 b.2,
    (behind.zipIdx (l.code.index + 1)).flatMap fun b => labelled b.1 b.2, ?_, ?_⟩
  · rw [entries_eq, hold, List.zipIdx_append, hindex, List.zipIdx_cons, List.flatMap_append,
      List.flatMap_cons, labelled_code, List.append_assoc]
  · rw [entries_eq, hnew, List.zipIdx_append, hindex, List.zipIdx_cons, List.flatMap_append,
      List.flatMap_cons, labelled_code, List.append_assoc]

private theorem modify_eq_set {buckets : Array (Array Nat)} {index : Nat}
    (h : index < buckets.size) (f : Array Nat → Array Nat) :
    buckets.modify index f = buckets.set index (f buckets[index]) h := by
  apply Array.ext
  · simp
  · intro i hi hi'
    by_cases heq : index = i
    · subst heq
      simp [Array.getElem_modify]
    · simp [Array.getElem_modify, Array.getElem_set, heq]

/-- Putting a clause into a bucket adds one entry. -/
theorem push_spec {w : Watches} {l : Literal} (h : l.code.index < w.buckets.size)
    (clause : Nat) :
    ∃ w', w.push l clause = .ok w' ∧ w'.buckets.size = w.buckets.size ∧
      w'.entries.Perm ((l.code, clause) :: w.entries) := by
  obtain ⟨before, after, hold, hnew⟩ :=
    entries_set h (w.buckets[l.code.index].push clause)
  refine ⟨⟨w.buckets.set l.code.index (w.buckets[l.code.index].push clause) h⟩, ?_, by simp, ?_⟩
  · rw [push, if_pos h, modify_eq_set h]
  · rw [hold, hnew]
    simp only [Array.toList_push, List.map_append, List.map_cons, List.map_nil,
      List.append_assoc, List.singleton_append]
    rw [← List.append_assoc, ← List.append_assoc]
    exact List.perm_middle

/-- Putting several clauses into a bucket adds their entries. -/
theorem extend_spec {w : Watches} {l : Literal} (h : l.code.index < w.buckets.size)
    (clauses : List Nat) :
    ∃ w', w.extend l clauses = .ok w' ∧ w'.buckets.size = w.buckets.size ∧
      w'.entries.Perm (clauses.map (l.code, ·) ++ w.entries) := by
  obtain ⟨before, after, hold, hnew⟩ :=
    entries_set h (w.buckets[l.code.index] ++ clauses.toArray)
  refine ⟨⟨w.buckets.set l.code.index (w.buckets[l.code.index] ++ clauses.toArray) h⟩, ?_,
    by simp, ?_⟩
  · rw [extend, if_pos h, modify_eq_set h]
  · rw [hold, hnew]
    simp only [Array.toList_append, List.map_append, List.append_assoc]
    rw [← List.append_assoc before, ← List.append_assoc before]
    exact List.perm_append_comm_assoc _ _ _

/-- The entries of a bucket hold its clauses. -/
theorem map_snd_entries (code : LiteralCode) (bucket : List Nat) :
    (bucket.map (code, ·)).map Prod.snd = bucket := by
  rw [List.map_map]
  exact List.map_id bucket

/-- The second index is the first without the entries of a literal, whose bucket
    held the given clauses. -/
structure Emptied (w : Watches) (l : Literal) (bucket : List Nat) (w' : Watches) : Prop where
  size : w'.buckets.size = w.buckets.size
  entries : w.entries.Perm (bucket.map (l.code, ·) ++ w'.entries)
  others : ∀ entry ∈ w'.entries, entry.1 ≠ l.code

/-- The clauses of an emptied bucket are those that are missing. -/
theorem Emptied.indices {w w' : Watches} {l : Literal} {bucket : List Nat}
    (h : w.Emptied l bucket w') :
    (w.entries.map Prod.snd).Perm (bucket ++ w'.entries.map Prod.snd) := by
  have hindices := h.entries.map Prod.snd
  rwa [List.map_append, map_snd_entries] at hindices

/-- Emptying a bucket removes the entries of its literal and no others. -/
theorem clear_spec {w : Watches} {l : Literal} (h : l.code.index < w.buckets.size) :
    ∃ bucket w', w.bucket l = .ok bucket ∧ w.clear l = .ok w' ∧ w.Emptied l bucket.toList w' := by
  obtain ⟨before, after, hold, hnew⟩ := entries_set h #[]
  refine ⟨w.buckets[l.code.index], ⟨w.buckets.set l.code.index #[] h⟩, ?_, ?_, by simp, ?_, ?_⟩
  · rw [bucket, dif_pos h]
  · rw [clear, dif_pos h]
  · rw [hold, hnew]
    simp only [List.map_nil, List.append_nil, List.append_assoc]
    exact List.perm_append_comm_assoc _ _ _
  · rintro ⟨code, clause⟩ hmem rfl
    obtain ⟨bucket, hbucket, hclause⟩ := mem_entries.mp hmem
    rw [Array.getElem?_set_self] at hbucket
    cases hbucket
    simp at hclause

section Success

variable {w w' : Watches} {l : Literal}

/-- A clause that has been put into a bucket is one more entry. -/
theorem of_push {clause : Nat} (h : w.push l clause = .ok w') :
    w'.buckets.size = w.buckets.size ∧ w'.entries.Perm ((l.code, clause) :: w.entries) := by
  by_cases hindex : l.code.index < w.buckets.size
  · obtain ⟨pushed, hpush, hspec⟩ := push_spec hindex clause
    rw [h] at hpush
    cases hpush
    exact hspec
  · rw [push, if_neg hindex] at h
    cases h

/-- Clauses that have been put into a bucket are so many more entries. -/
theorem of_extend {clauses : List Nat} (h : w.extend l clauses = .ok w') :
    w'.buckets.size = w.buckets.size ∧
      w'.entries.Perm (clauses.map (l.code, ·) ++ w.entries) := by
  by_cases hindex : l.code.index < w.buckets.size
  · obtain ⟨extended, hextend, hspec⟩ := extend_spec hindex clauses
    rw [h] at hextend
    cases hextend
    exact hspec
  · rw [extend, if_neg hindex] at h
    cases h

/-- Clearing a bucket takes its entries away and no others. -/
theorem emptied_of_clear {bucket : Array Nat} (hbucket : w.bucket l = .ok bucket)
    (hclear : w.clear l = .ok w') : w.Emptied l bucket.toList w' := by
  by_cases hindex : l.code.index < w.buckets.size
  · obtain ⟨found, cleared, hbucket', hclear', hemptied⟩ := clear_spec hindex
    rw [hbucket] at hbucket'
    rw [hclear] at hclear'
    cases hbucket'
    cases hclear'
    exact hemptied
  · rw [clear, dif_neg hindex] at hclear
    cases hclear

end Success

/-- The clauses of all buckets, also of those that belong to no literal. -/
def indices (w : Watches) : List Nat := w.buckets.toList.flatMap Array.toList

/-- The clause of an entry is in a bucket. -/
theorem mem_indices_of_mem_entries {w : Watches} {i : Nat} (h : i ∈ w.entries.map Prod.snd) :
    i ∈ w.indices := by
  obtain ⟨⟨code, clause⟩, hentry, rfl⟩ := List.mem_map.mp h
  obtain ⟨bucket, hbucket, hclause⟩ := mem_entries.mp hentry
  exact List.mem_flatMap.mpr ⟨bucket, Array.mem_toList_iff.mpr (Array.mem_of_getElem? hbucket),
    Array.mem_toList_iff.mpr hclause⟩

private theorem indices_set {w : Watches} {index : Nat} (h : index < w.buckets.size)
    (bucket : Array Nat) :
    ∃ before after, w.indices = before ++ (w.buckets[index].toList ++ after) ∧
      indices ⟨w.buckets.set index bucket h⟩ = before ++ (bucket.toList ++ after) := by
  obtain ⟨front, behind, _, hold, hnew⟩ := toList_set h bucket
  refine ⟨front.flatMap Array.toList, behind.flatMap Array.toList, ?_, ?_⟩
  · rw [indices, hold, List.flatMap_append, List.flatMap_cons]
  · rw [indices, hnew, List.flatMap_append, List.flatMap_cons]

section Indices

variable {w w' : Watches} {l : Literal}

/-- Putting a clause into a bucket adds it to the clauses in the buckets. -/
theorem indices_of_push {clause : Nat} (h : w.push l clause = .ok w') :
    w'.indices.Perm (clause :: w.indices) := by
  unfold push at h
  split at h
  · rename_i hindex
    rw [modify_eq_set hindex] at h
    cases h
    obtain ⟨before, after, hold, hnew⟩ := indices_set hindex (w.buckets[l.code.index].push clause)
    rw [hold, hnew, Array.toList_push, List.append_assoc, List.singleton_append,
      ← List.append_assoc, ← List.append_assoc]
    exact List.perm_middle
  · cases h

/-- Putting several clauses into a bucket adds them to the clauses in the buckets. -/
theorem indices_of_extend {clauses : List Nat} (h : w.extend l clauses = .ok w') :
    w'.indices.Perm (clauses ++ w.indices) := by
  unfold extend at h
  split at h
  · rename_i hindex
    rw [modify_eq_set hindex] at h
    cases h
    obtain ⟨before, after, hold, hnew⟩ :=
      indices_set hindex (w.buckets[l.code.index] ++ clauses.toArray)
    rw [hold, hnew, Array.toList_append, List.append_assoc, ← List.append_assoc before,
      ← List.append_assoc before]
    exact List.perm_append_comm_assoc _ _ _
  · cases h

/-- Clearing a bucket takes its clauses away and no others. -/
theorem indices_of_clear {bucket : Array Nat} (hbucket : w.bucket l = .ok bucket)
    (hclear : w.clear l = .ok w') : w.indices.Perm (bucket.toList ++ w'.indices) := by
  unfold Watches.bucket at hbucket
  unfold clear at hclear
  split at hclear
  · rename_i hindex
    rw [dif_pos hindex] at hbucket
    cases hbucket
    cases hclear
    obtain ⟨before, after, hold, hnew⟩ := indices_set hindex #[]
    rw [hold, hnew, List.nil_append]
    exact List.perm_append_comm_assoc _ _ _
  · cases hclear

end Indices

end Watches

end Clausal
