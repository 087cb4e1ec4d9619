import Clausal.Formula
import Clausal.Proofs.Watches.Valid
import Mathlib.Data.List.Nodup
import Mathlib.Data.List.Count

namespace Clausal

namespace Watches

/-- The clause of an entry holds the watching literal, which is not false. -/
def Fits (clauses : Array Clause) (a : Assignment) (entry : LiteralCode × Nat) : Prop :=
  (∃ c, clauses[entry.2]? = some c ∧ entry.1.literal ∈ c) ∧ a.falsifies entry.1.literal = false

/-- The entries fit and belong to different clauses, which are those that the table
    has marked. -/
structure Passed (clauses : Array Clause) (a : Assignment) (entries : List (LiteralCode × Nat))
    (seen : Array Bool) : Prop where
  size : seen.size = clauses.size
  marked : ∀ i < clauses.size, seen[i]? = some (decide (i ∈ entries.map Prod.snd))
  nodup : (entries.map Prod.snd).Nodup
  fits : ∀ entry ∈ entries, Fits clauses a entry

section Entries

variable {clauses : Array Clause} {a : Assignment} {seen : Array Bool}
  {front rest : List (LiteralCode × Nat)} {entry : LiteralCode × Nat}

/-- An entry that fits and has not been seen passes as well. -/
theorem Passed.concat (h : Passed clauses a front seen) (hseen : entry.2 < seen.size)
    (hnew : entry.2 ∉ front.map Prod.snd) (hfits : Fits clauses a entry) :
    Passed clauses a (front ++ [entry]) (seen.set entry.2 true hseen) := by
  refine ⟨by rw [Array.size_set, h.size], fun i hi => ?_, ?_, ?_⟩
  · by_cases heq : entry.2 = i
    · subst heq
      simp
    · rw [Array.getElem?_set_ne hseen heq, h.marked i hi]
      simp [Ne.symm heq]
  · rw [List.map_append, List.map_singleton, (List.perm_append_singleton _ _).nodup_iff]
    exact List.nodup_cons.mpr ⟨hnew, h.nodup⟩
  · intro other hother
    rcases List.mem_append.mp hother with hother | hother
    · exact h.fits other hother
    · rw [List.mem_singleton.mp hother]
      exact hfits

/-- A clause that the table has not marked has not been met. -/
private theorem Passed.findIdx?_spec (h : Passed clauses a front seen) :
    match seen.toList.findIdx? (!·) with
    | some i => i < clauses.size ∧ i ∉ front.map Prod.snd
    | none => ∀ i < clauses.size, i ∈ front.map Prod.snd := by
  match hfind : seen.toList.findIdx? (!·) with
  | some i =>
    obtain ⟨hi, hunseen, _⟩ := List.findIdx?_eq_some_iff_getElem.mp hfind
    rw [Array.length_toList, h.size] at hi
    have hget := h.marked i hi
    rw [Array.getElem?_eq_getElem (by rwa [h.size]), Option.some.injEq] at hget
    rw [Array.getElem_toList, hget] at hunseen
    exact ⟨hi, by simpa using hunseen⟩
  | none =>
    intro i hi
    have hget := h.marked i hi
    have hseen := List.findIdx?_eq_none_iff.mp hfind (decide (i ∈ front.map Prod.snd))
      (Array.mem_toList_iff.mpr (Array.mem_of_getElem? hget))
    simpa using hseen

/-- An entry passes if it fits and its clause has not been met. -/
private theorem auditEntry_spec (h : Passed clauses a front seen)
    (hindex : entry.2 < clauses.size) :
    match auditEntry clauses a seen entry with
    | .ok seen' => Passed clauses a (front ++ [entry]) seen'
    | .error failure => failure = .error (.watchInvariant entry.2) ∧
        (entry.2 ∈ front.map Prod.snd ∨ ¬ Fits clauses a entry) := by
  have hseen : entry.2 < seen.size := by rwa [h.size]
  have hmarked : seen[entry.2] = decide (entry.2 ∈ front.map Prod.snd) := by
    have hget := h.marked entry.2 hindex
    rw [Array.getElem?_eq_getElem hseen] at hget
    exact Option.some.inj hget
  have hbad : (seen[entry.2] || !(clauses[entry.2]).contains entry.1.literal ||
      a.falsifies entry.1.literal) = true ↔
        entry.2 ∈ front.map Prod.snd ∨ ¬ Fits clauses a entry := by
    simp [hmarked, Fits, hindex, or_assoc, imp_iff_not_or]
  rw [auditEntry, dif_pos ⟨hindex, hseen⟩]
  dsimp only
  by_cases hreason : entry.2 ∈ front.map Prod.snd ∨ ¬ Fits clauses a entry
  · rw [if_pos (hbad.mpr hreason)]
    exact ⟨rfl, hreason⟩
  · obtain ⟨hnew, hfits⟩ := not_or.mp hreason
    rw [if_neg (mt hbad.mp hreason)]
    exact h.concat hseen hnew (not_not.mp hfits)

/-- The entries pass up to the first that does not fit or whose clause has been met
    before. -/
private theorem foldlM_auditEntry (h : Passed clauses a front seen)
    (hindex : ∀ entry ∈ rest, entry.2 < clauses.size) :
    match rest.foldlM (auditEntry clauses a) seen with
    | .ok seen' => Passed clauses a (front ++ rest) seen'
    | .error failure => ∃ before entry after, front ++ rest = before ++ entry :: after ∧
        failure = .error (.watchInvariant entry.2) ∧
        (entry.2 ∈ before.map Prod.snd ∨ ¬ Fits clauses a entry) := by
  induction rest generalizing front seen with
  | nil =>
    rw [List.append_nil]
    exact h
  | cons entry rest ih =>
    obtain ⟨hfirst, hindex⟩ := List.forall_mem_cons.mp hindex
    have hentry := auditEntry_spec h hfirst
    rw [List.foldlM_cons]
    match hresult : auditEntry clauses a seen entry with
    | .error failure =>
      rw [hresult] at hentry
      exact ⟨front, entry, rest, rfl, hentry⟩
    | .ok seen' =>
      rw [hresult] at hentry
      have hrest := ih hentry hindex
      rw [List.append_assoc, List.singleton_append] at hrest
      exact hrest

end Entries

/-- How often the bucket of a literal holds a clause. -/
def watchCount (w : Watches) (l : Literal) (clause : Nat) : Nat :=
  (w.buckets.getD l.code.index #[]).count clause

/-- A clause is in the bucket of one of its own literals, which is not false. It is
    there once, and in no bucket of another literal. -/
def WatchedOnce (w : Watches) (clauses : Array Clause) (a : Assignment) (clause : Nat) : Prop :=
  ∃ c l, clauses[clause]? = some c ∧ l ∈ c ∧ a.falsifies l = false ∧
    ∀ m, w.watchCount m clause = if m = l then 1 else 0

/-- What can be wrong with a clause: it is not watched, or more than once, or by a
    literal that it does not hold, or by one that is false. -/
inductive Violation (w : Watches) (clauses : Array Clause) (a : Assignment) (clause : Nat) : Prop
  | unwatched (h : ∀ l, w.watchCount l clause = 0)
  | repeated {l m : Literal} (hl : 0 < w.watchCount l clause) (hm : 0 < w.watchCount m clause)
      (htwice : l = m → 2 ≤ w.watchCount l clause)
  | foreign {l : Literal} {c : Clause} (hl : 0 < w.watchCount l clause)
      (hclause : clauses[clause]? = some c) (hforeign : l ∉ c)
  | falsified {l : Literal} (hl : 0 < w.watchCount l clause) (hfalse : a.falsifies l = true)

section Counting

variable {w : Watches} {clauses : Array Clause} {a : Assignment}

/-- A clause is in the bucket of a literal as often as the literal watches it. -/
theorem count_entries (w : Watches) (l : Literal) (clause : Nat) :
    w.entries.count (l.code, clause) = w.watchCount l clause := by
  by_cases h : l.code.index < w.buckets.size
  · obtain ⟨bucket, cleared, hbucket, _, hemptied⟩ := clear_spec h
    have hothers : cleared.entries.count (l.code, clause) = 0 :=
      List.count_eq_zero.mpr fun hmem => hemptied.others _ hmem rfl
    rw [Watches.bucket, dif_pos h] at hbucket
    cases hbucket
    rw [hemptied.entries.count_eq, List.count_append, hothers, Nat.add_zero,
      List.count_map_of_injective _ _ fun _ _ heq => congrArg Prod.snd heq]
    simp [watchCount, h]
  · have hnone : (l.code, clause) ∉ w.entries := by
      intro hmem
      obtain ⟨bucket, hbucket, _⟩ := mem_entries.mp hmem
      exact h (Array.getElem?_eq_some_iff.mp hbucket).1
    rw [List.count_eq_zero.mpr hnone]
    simp [watchCount, h]

/-- An entry occurs as often as the clause is watched by its literal. -/
theorem count_entry (w : Watches) (entry : LiteralCode × Nat) :
    w.entries.count entry = w.watchCount entry.1.literal entry.2 := by
  rw [← count_entries, LiteralCode.code_literal]

/-- An entry that does not fit, or whose clause has an entry in front of it, tells
    what is wrong with the clause. -/
private theorem violation_of_entry {before after : List (LiteralCode × Nat)}
    {entry : LiteralCode × Nat} (hentries : w.entries = before ++ entry :: after)
    (hindex : entry.2 < clauses.size)
    (h : entry.2 ∈ before.map Prod.snd ∨ ¬ Fits clauses a entry) :
    w.Violation clauses a entry.2 := by
  have hwatched : 0 < w.watchCount entry.1.literal entry.2 := by
    rw [← count_entry, List.count_pos_iff, hentries]
    exact List.mem_append_right _ List.mem_cons_self
  rcases h with hmet | hfits
  · obtain ⟨other, hother, heq⟩ := List.mem_map.mp hmet
    refine .repeated (m := other.1.literal) hwatched ?_ fun hsame => ?_
    · rw [← heq, ← count_entry, List.count_pos_iff, hentries]
      exact List.mem_append_left _ hother
    · have hcode : entry.1 = other.1 := by
        rw [← LiteralCode.code_literal entry.1, hsame, LiteralCode.code_literal]
      obtain rfl : other = entry := Prod.ext hcode.symm heq
      have hbefore := List.count_pos_iff.mpr hother
      rw [← count_entry, hentries, List.count_append, List.count_cons_self]
      omega
  · cases hfalse : a.falsifies entry.1.literal with
    | true => exact .falsified hwatched hfalse
    | false =>
      refine .foreign hwatched (Array.getElem?_eq_getElem hindex) fun hown => hfits ?_
      exact ⟨⟨_, Array.getElem?_eq_getElem hindex, hown⟩, hfalse⟩

/-- The check succeeds on valid indices only. Otherwise it names a clause that is not
    watched as it should be. -/
theorem audit_spec (hindex : ∀ entry ∈ w.entries, entry.2 < clauses.size) :
    match w.audit clauses a with
    | .ok () => w.Valid clauses a
    | .error failure => ∃ i < clauses.size, failure = .error (.watchInvariant i) ∧
        w.Violation clauses a i := by
  have hstart : Passed clauses a [] (Array.replicate clauses.size false) :=
    ⟨by simp, fun i hi => by simp [hi], by simp, by simp⟩
  have hfold := foldlM_auditEntry hstart hindex
  rw [List.nil_append] at hfold
  match hresult : w.entries.foldlM (auditEntry clauses a) (Array.replicate clauses.size false) with
  | .error failure =>
    rw [hresult] at hfold
    obtain ⟨before, entry, after, hentries, hfailure, hreason⟩ := hfold
    have hentry : entry.2 < clauses.size :=
      hindex entry (hentries ▸ List.mem_append_right _ List.mem_cons_self)
    simp only [audit, hresult, bind, Except.bind]
    exact ⟨entry.2, hentry, hfailure, violation_of_entry hentries hentry hreason⟩
  | .ok seen =>
    rw [hresult] at hfold
    have hend := hfold.findIdx?_spec
    match hfind : seen.toList.findIdx? (!·) with
    | some i =>
      rw [hfind] at hend
      simp only [audit, hresult, bind, Except.bind, hfind]
      refine ⟨i, hend.1, rfl, .unwatched fun l => ?_⟩
      rw [← count_entries, List.count_eq_zero]
      exact fun hmem => hend.2 (List.mem_map.mpr ⟨_, hmem, rfl⟩)
    | none =>
      rw [hfind] at hend
      simp only [audit, hresult, bind, Except.bind, hfind]
      refine ⟨?_, fun entry hentry => (hfold.fits entry hentry).1,
        fun entry hentry => (hfold.fits entry hentry).2⟩
      rw [List.perm_ext_iff_of_nodup hfold.nodup List.nodup_range]
      intro i
      rw [List.mem_range]
      constructor
      · intro hmem
        obtain ⟨entry, hentry, rfl⟩ := List.mem_map.mp hmem
        exact hindex entry hentry
      · exact hend i

/-- A clause that is watched as it should be violates nothing. -/
theorem WatchedOnce.not_violation {i : Nat} (h : w.WatchedOnce clauses a i) :
    ¬ w.Violation clauses a i := by
  obtain ⟨c, l, hclause, hown, hlive, hcount⟩ := h
  have honly {m : Literal} (hm : 0 < w.watchCount m i) : m = l := by
    rw [hcount] at hm
    by_contra hne
    simp [hne] at hm
  rintro (hnone | ⟨hl, hm, htwice⟩ | ⟨hm, hclause', hforeign⟩ | ⟨hm, hfalse⟩)
  · have hl := hnone l
    simp [hcount] at hl
  · have htwo := htwice ((honly hl).trans (honly hm).symm)
    simp [hcount, honly hl] at htwo
  · rw [hclause] at hclause'
    cases hclause'
    exact hforeign (honly hm ▸ hown)
  · rw [honly hm, hlive] at hfalse
    cases hfalse

/-- In a valid index every clause is watched once. -/
theorem Valid.watchedOnce (h : w.Valid clauses a) {i : Nat} (hi : i < clauses.size) :
    w.WatchedOnce clauses a i := by
  obtain ⟨entry, hentry, rfl⟩ := List.mem_map.mp (h.once.mem_iff.mpr (List.mem_range.mpr hi))
  obtain ⟨c, hclause, hown⟩ := h.own entry hentry
  have hnodup : (w.entries.map Prod.snd).Nodup := h.once.nodup_iff.mpr List.nodup_range
  refine ⟨c, entry.1.literal, hclause, hown, h.live entry hentry, fun m => ?_⟩
  rw [← count_entries]
  by_cases hm : m = entry.1.literal
  · rw [if_pos hm, hm, LiteralCode.code_literal]
    exact List.count_eq_one_of_mem (hnodup.of_map _) hentry
  · rw [if_neg hm, List.count_eq_zero]
    intro hmem
    have heq := List.inj_on_of_nodup_map hnodup hmem hentry rfl
    exact hm (by rw [← heq, Literal.literal_code])

/-- The check of a valid index succeeds. -/
theorem Valid.audit_eq_ok (h : w.Valid clauses a) : w.audit clauses a = .ok () := by
  have hspec := audit_spec (a := a) fun entry hentry =>
    List.mem_range.mp (h.once.mem_iff.mp (List.mem_map.mpr ⟨entry, hentry, rfl⟩))
  match hresult : w.audit clauses a with
  | .ok () => rfl
  | .error failure =>
    rw [hresult] at hspec
    obtain ⟨i, hi, _, hviolation⟩ := hspec
    exact absurd hviolation (h.watchedOnce hi).not_violation

/-- The check succeeds if and only if every clause is in one bucket of a literal, once,
    and the literal is its own and not false. Otherwise it names a clause that is not
    watched, or more than once, or by a literal that it does not hold or that is
    false. -/
theorem audit_exact (hindex : ∀ i ∈ w.indices, i < clauses.size) :
    (w.audit clauses a = .ok () ↔ ∀ i < clauses.size, w.WatchedOnce clauses a i) ∧
      ∀ failure, w.audit clauses a = .error failure →
        ∃ i < clauses.size, failure = .error (.watchInvariant i) ∧
          w.Violation clauses a i := by
  have hentries : ∀ entry ∈ w.entries, entry.2 < clauses.size := by
    intro entry hentry
    exact hindex _ (mem_indices_of_mem_entries (List.mem_map.mpr ⟨entry, hentry, rfl⟩))
  have hspec := audit_spec (a := a) hentries
  match hresult : w.audit clauses a with
  | .ok () =>
    rw [hresult] at hspec
    refine ⟨iff_of_true rfl fun i hi => hspec.watchedOnce hi, ?_⟩
    intro failure hfailure
    cases hfailure
  | .error failure =>
    rw [hresult] at hspec
    refine ⟨iff_of_false nofun ?_, ?_⟩
    · intro hall
      obtain ⟨i, hi, _, hviolation⟩ := hspec
      exact (hall i hi).not_violation hviolation
    · intro failure' hfailure
      cases hfailure
      exact hspec

/-- A clause may also be in a bucket that belongs to no literal. When a second entry
    of it stands in the bucket of its literal, the check names it. -/
theorem audit_exact_of_repetition :
    ∃ f, Formula.ofRows [[1, 2], [-1, 2]] = .ok f ∧
      ∃ a w w', a = Assignment.mk #[some false, none] ∧
        w = Watches.mk #[#[0], #[], #[], #[1], #[0], #[]] ∧
        w' = Watches.mk #[#[], #[], #[], #[1], #[0, 0], #[]] ∧
        w.audit f.clauses.toArray a = .ok () ∧
        (∀ i < 2, w.WatchedOnce f.clauses.toArray a i) ∧
        w'.audit f.clauses.toArray a = .error (.error (.watchInvariant 0)) ∧
        w'.Violation f.clauses.toArray a 0 := by
  let a : Assignment := ⟨#[some false, none]⟩
  let w : Watches := ⟨#[#[0], #[], #[], #[1], #[0], #[]]⟩
  let w' : Watches := ⟨#[#[], #[], #[], #[1], #[0, 0], #[]]⟩
  obtain ⟨f, hrows, hindex, hindex', haudit, haudit', hsize⟩ :
      ∃ f, Formula.ofRows [[1, 2], [-1, 2]] = .ok f ∧
        (∀ i ∈ w.indices, i < f.clauses.toArray.size) ∧
        (∀ i ∈ w'.indices, i < f.clauses.toArray.size) ∧
        w.audit f.clauses.toArray a = .ok () ∧
        w'.audit f.clauses.toArray a = .error (.error (.watchInvariant 0)) ∧
        f.clauses.toArray.size = 2 :=
    ⟨_, rfl, by decide, by decide, rfl, rfl, rfl⟩
  have hwatched := (audit_exact (a := a) hindex).1.mp haudit
  obtain ⟨i, _, heq, hviolation⟩ := (audit_exact (a := a) hindex').2 _ haudit'
  cases heq
  rw [hsize] at hwatched
  exact ⟨f, hrows, a, w, w', rfl, rfl, rfl, haudit, hwatched, haudit', hviolation⟩

end Counting

end Watches

end Clausal
