import Clausal.Proofs.Valuation
import Clausal.Proofs.Watches.Entries

namespace Clausal

namespace Watches

/-- Every clause is watched exactly once, by one of its own literals, and the
    assignment does not make that literal false. -/
structure Valid (w : Watches) (clauses : Array Clause) (a : Assignment) : Prop where
  once : (w.entries.map Prod.snd).Perm (List.range clauses.size)
  own : ∀ entry ∈ w.entries, ∃ c, clauses[entry.2]? = some c ∧ entry.1.literal ∈ c
  live : ∀ entry ∈ w.entries, a.falsifies entry.1.literal = false

/-- A literal that is not false later was not false before. -/
theorem falsifies_eq_false_of_extends {a a' : Assignment} {l : Literal} (h : a'.Extends a)
    (hl : a'.falsifies l = false) : a.falsifies l = false := by
  rw [← Bool.not_eq_true] at hl ⊢
  intro hfalse
  exact hl (Assignment.falsifies_iff.mpr (h _ _ (Assignment.falsifies_iff.mp hfalse)))

/-- An index stays valid when values are taken away. -/
theorem Valid.of_extends {w : Watches} {clauses : Array Clause} {a a' : Assignment}
    (h : w.Valid clauses a') (hextends : a'.Extends a) : w.Valid clauses a :=
  ⟨h.once, h.own, fun entry hentry => falsifies_eq_false_of_extends hextends (h.live entry hentry)⟩

/-- Every clause has a literal that watches it, and that literal is not false. -/
theorem Valid.exists_live {w : Watches} {clauses : Array Clause} {a : Assignment}
    (h : w.Valid clauses a) {c : Clause} (hc : c ∈ clauses) :
    ∃ l ∈ c, a.falsifies l = false := by
  obtain ⟨i, hi, rfl⟩ := Array.mem_iff_getElem.mp hc
  obtain ⟨entry, hentry, rfl⟩ := List.mem_map.mp (h.once.mem_iff.mpr (List.mem_range.mpr hi))
  obtain ⟨c, hclause, hown⟩ := h.own entry hentry
  rw [Array.getElem?_eq_getElem hi] at hclause
  cases hclause
  exact ⟨_, hown, h.live entry hentry⟩

/-- Placing the next clause keeps the index valid, unless the clause is false. -/
private theorem place_spec {w : Watches} {front : List Clause} {c : Clause} {a : Assignment}
    {numVars : Nat} (hvalid : w.Valid front.toArray a)
    (hsize : w.buckets.size = LiteralCode.tableLength numVars)
    (hrange : ∀ l ∈ c, l.var.id ≤ numVars) :
    match place a w (c, front.length) with
    | .ok w' => w'.Valid (front ++ [c]).toArray a ∧
        w'.buckets.size = LiteralCode.tableLength numVars
    | .error (.error _) => ∀ l ∈ c, a.falsifies l = true
    | .error (.fault _) => False := by
  match hfind : c.find? fun l => !a.falsifies l with
  | none =>
    have hresult : place a w (c, front.length) = .error (.error ⟨front.length⟩) := by
      simp only [place, hfind]
    rw [hresult]
    intro l hl
    simpa using List.find?_eq_none.mp hfind l hl
  | some l =>
    have hmem := List.mem_of_find?_eq_some hfind
    have hlive := List.find?_some hfind
    obtain ⟨w', hpush, hsize', hperm⟩ := push_spec (w := w) (l := l)
      (by rw [hsize]; exact Literal.code_index_lt (hrange l hmem)) front.length
    have hresult : place a w (c, front.length) = .ok w' := by
      simp only [place, hfind, hpush]
      rfl
    rw [hresult]
    refine ⟨⟨?_, ?_, ?_⟩, hsize'.trans hsize⟩
    · apply ((hperm.map Prod.snd).trans (hvalid.once.cons front.length)).trans
      simp only [List.size_toArray, List.length_append, List.length_singleton]
      rw [List.range_succ]
      exact (List.perm_append_singleton _ _).symm
    · intro entry hentry
      rcases List.mem_cons.mp (hperm.mem_iff.mp hentry) with rfl | hentry
      · exact ⟨c, by simp, by simpa using hmem⟩
      · obtain ⟨c', hclause, hown⟩ := hvalid.own entry hentry
        refine ⟨c', ?_, hown⟩
        rw [List.getElem?_toArray] at hclause ⊢
        rw [List.getElem?_append_left (List.getElem?_eq_some_iff.mp hclause).1, hclause]
    · intro entry hentry
      rcases List.mem_cons.mp (hperm.mem_iff.mp hentry) with rfl | hentry
      · simpa using hlive
      · exact hvalid.live entry hentry

private theorem foldlM_place {w : Watches} {front rest : List Clause} {a : Assignment}
    {numVars : Nat} (hvalid : w.Valid front.toArray a)
    (hsize : w.buckets.size = LiteralCode.tableLength numVars)
    (hrange : ∀ c ∈ rest, ∀ l ∈ c, l.var.id ≤ numVars) :
    match (rest.zipIdx front.length).foldlM (place a) w with
    | .ok w' => w'.Valid (front ++ rest).toArray a ∧
        w'.buckets.size = LiteralCode.tableLength numVars
    | .error (.error _) => a.Refutes rest
    | .error (.fault _) => False := by
  induction rest generalizing w front with
  | nil => simpa using ⟨hvalid, hsize⟩
  | cons c rest ih =>
    obtain ⟨hfirst, hrange⟩ := List.forall_mem_cons.mp hrange
    have hplace := place_spec hvalid hsize hfirst
    rw [List.zipIdx_cons, List.foldlM_cons]
    match hresult : place a w (c, front.length) with
    | .error (.fault _) => simp [hresult] at hplace
    | .error (.error _) =>
      rw [hresult] at hplace
      exact Assignment.refutes_of_falsified List.mem_cons_self hplace
    | .ok w' =>
      rw [hresult] at hplace
      have hlast := ih hplace.1 hplace.2 hrange
      rw [List.length_append, List.length_singleton, List.append_assoc,
        List.singleton_append] at hlast
      match hresult' : (rest.zipIdx (front.length + 1)).foldlM (place a) w' with
      | .error (.fault _) => simp [hresult'] at hlast
      | .error (.error _) =>
        rw [hresult'] at hlast
        simp only [bind, Except.bind, hresult']
        exact fun v hv hsat => hlast v hv (List.forall_mem_cons.mp hsat).2
      | .ok w'' =>
        rw [hresult'] at hlast
        simp only [bind, Except.bind, hresult']
        exact hlast

/-- The index of clauses over an admissible number of variables is valid. If it
    cannot be built, then the assignment makes a clause false. -/
theorem ofClauses_spec {clauses : List Clause} {numVars : Nat} {a : Assignment}
    (hmax : numVars ≤ Variable.maxId)
    (hrange : ∀ c ∈ clauses, ∀ l ∈ c, l.var.id ≤ numVars) :
    match ofClauses clauses numVars a with
    | .ok w => w.Valid clauses.toArray a ∧
        w.buckets.size = LiteralCode.tableLength numVars
    | .error (.error _) => a.Refutes clauses
    | .error (.fault _) => False := by
  have hcreate : create numVars = .ok (blank numVars) := by
    simp only [Variable.maxId] at hmax
    have hmul : 2 * numVars < Word.bound := by simp only [Word.bound]; omega
    have hadd : 2 * numVars + 2 < Word.bound := by simp only [Word.bound]; omega
    have htable : (2 * numVars + 2) * 64 ≤ Word.maxTableBytes := by
      simp only [Word.maxTableBytes]; omega
    simp [create, Word.mul, Word.add, Word.checkTable, hmul, hadd, htable, bind, Except.bind,
      pure, Except.pure]
  have hempty : (blank numVars).entries = [] := by
    rw [List.eq_nil_iff_forall_not_mem]
    rintro ⟨code, clause⟩ hmem
    obtain ⟨bucket, hbucket, hclause⟩ := mem_entries.mp hmem
    obtain ⟨_, rfl⟩ := Array.getElem?_eq_some_iff.mp hbucket
    simp [blank] at hclause
  have hblank : (blank numVars).Valid [].toArray a :=
    ⟨by simp [hempty], by simp [hempty], by simp [hempty]⟩
  have hfold := foldlM_place hblank (by simp [blank]) hrange
  simp only [List.length_nil, List.nil_append] at hfold
  simp only [ofClauses, hcreate]
  exact hfold

end Watches

end Clausal
