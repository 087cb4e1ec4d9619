import Clausal.Command.MemoryHost

namespace Clausal.Command

open Text

/-- What shows of a host while a command runs on it: what its files and its
    standard input hold, and what has been written to standard output. -/
structure Scene (φ : Type) where
  store : φ
  output : String

/-- The scene after a text has been written to standard output. -/
def Scene.print {φ : Type} (scene : Scene φ) (text : String) : Scene φ :=
  { scene with output := scene.output ++ text }

section Hosts

variable {σ ν φ α : Type}

/-- An operation that leaves no trace in what shows. -/
def Unseen (view : σ → ν) (x : StateM σ α) : Prop := ∀ s, view (x.run s).2 = view s

/-- An operation whose result and whose trace in what shows come from what shows
    alone. -/
def Determined (view : σ → ν) (x : StateM σ α) : Prop :=
  ∀ s t, view s = view t → (x.run s).1 = (x.run t).1 ∧ view (x.run s).2 = view (x.run t).2

/-- The laws of a host. Time, memory and the threshold for events may be anything, and
    reading them leaves no trace in what shows. -/
structure Host.Lawful (h : Host (StateM σ)) (view : σ → Scene φ) : Prop where
  read : ∀ path, Determined view (h.read path)
  isDirectory : ∀ path, Determined view (h.isDirectory path)
  filesBelow : ∀ path, Determined view (h.filesBelow path)
  write : ∀ path text, Determined view (h.write path text)
  print : ∀ text s, view ((h.print text).run s).2 = (view s).print text
  report : ∀ text, Unseen view (h.report text)
  emit : ∀ e, Unseen view (h.emit e)
  now : Unseen view h.now
  memory : Unseen view h.memory
  threshold : Unseen view h.threshold

/-- What printing leaves behind comes from what showed before. -/
theorem Host.Lawful.determined_print {h : Host (StateM σ)} {view : σ → Scene φ}
    (hh : h.Lawful view) (text : String) : Determined view (h.print text) := by
  intro s t hview
  rw [hh.print, hh.print, hview]
  exact ⟨rfl, rfl⟩

/-- An operation without a result that leaves no trace is determined. -/
theorem Unseen.determined {view : σ → ν} {x : StateM σ Unit} (hx : Unseen view x) :
    Determined view x := by
  intro s t hview
  rw [hx, hx, hview]
  exact ⟨rfl, rfl⟩

end Hosts

namespace MemoryHost

/-- What shows of a host in memory. -/
def scene (s : MemoryHost) : Scene (FileTree × Source) := ⟨(s.files, s.input), s.output⟩

/-- Hosts that show the same differ at most in their reports and their logs. -/
theorem eq_of_scene_eq {s t : MemoryHost} (h : scene s = scene t) :
    t = { s with reports := t.reports, log := t.log } := by
  simp only [scene, Scene.mk.injEq, Prod.mk.injEq] at h
  obtain ⟨⟨hfiles, hinput⟩, houtput⟩ := h
  rw [hfiles, hinput, houtput]

/-- The host in memory obeys the laws. -/
theorem host_lawful : host.Lawful scene where
  read path s t hview := by
    rw [eq_of_scene_eq hview]
    exact ⟨rfl, rfl⟩
  isDirectory path s t hview := by
    rw [eq_of_scene_eq hview]
    exact ⟨rfl, rfl⟩
  filesBelow path s t hview := by
    rw [eq_of_scene_eq hview]
    exact ⟨rfl, rfl⟩
  write path text s t hview := by
    rw [eq_of_scene_eq hview]
    simp only [host, write, StateT.run]
    cases s.files.write path text with
    | ok files => exact ⟨rfl, rfl⟩
    | error cause => exact ⟨rfl, rfl⟩
  print text s := rfl
  report text s := rfl
  emit e s := rfl
  now s := rfl
  memory s := rfl
  threshold s := rfl

end MemoryHost

/-- A result that is a value with a property, or a failure that does not blame a
    model. -/
def Blameless {α : Type} (P : α → Prop) : Except (Failure Error) α → Prop
  | .ok a => P a
  | .error failure => ∀ label, failure ≠ .error (.verification label)

section Failures

variable {ε α : Type}

/-- Naming the place of an error blames no model, unless the names themselves do. -/
theorem map_ne_verification {embed : ε → Error}
    (hembed : ∀ cause label, embed cause ≠ .verification label) (failure : Failure ε)
    (label : String) : failure.map embed ≠ .error (.verification label) := by
  cases failure with
  | fault reason => exact nofun
  | error cause => exact fun h => hembed cause label (Failure.error.inj h)

/-- A result with its errors embedded among others blames no model, unless the embedding
    does. -/
theorem blameless_mapError {embed : ε → Failure Error}
    (hembed : ∀ cause label, embed cause ≠ .error (.verification label)) (r : Except ε α) :
    Blameless (r = .ok ·) (r.mapError embed) := by
  cases r with
  | ok a => exact rfl
  | error cause => exact hembed cause

end Failures

section Actions

variable {σ ν α β : Type} {view : σ → ν}

/-- A sequence runs its second step where the first has ended, if that has not failed. -/
theorem run_bind (x : Action (StateM σ) α) (f : α → Action (StateM σ) β) (s : σ) :
    (x >>= f).run.run s = match (x.run.run s).1 with
      | .ok a => (f a).run.run (x.run.run s).2
      | .error failure => (.error failure, (x.run.run s).2) := by
  rw [ExceptT.run_bind, StateT.run_bind]
  obtain ⟨_ | _, _⟩ := x.run.run s
  · rfl
  · rfl

/-- The action ends with a given result and leaves no trace in what shows. -/
def Yields (view : σ → ν) (x : Action (StateM σ) α) (r : Except (Failure Error) α) : Prop :=
  ∀ s, (x.run.run s).1 = r ∧ view (x.run.run s).2 = view s

namespace Yields

theorem pure (view : σ → ν) (a : α) : Yields view (pure a) (.ok a) := fun _ => ⟨rfl, rfl⟩

theorem throw (view : σ → ν) (failure : Failure Error) :
    Yields view (throw failure : Action (StateM σ) α) (.error failure) := fun _ => ⟨rfl, rfl⟩

/-- If the first of two steps leaves no trace and the second one neither, then the
    sequence leaves none. -/
theorem bind {x : Action (StateM σ) α} {f : α → Action (StateM σ) β} {a : α}
    {r : Except (Failure Error) β} (hx : Yields view x (.ok a)) (hf : Yields view (f a) r) :
    Yields view (x >>= f) r := by
  intro s
  obtain ⟨hresult, hview⟩ := hx s
  obtain ⟨hresult', hview'⟩ := hf (x.run.run s).2
  rw [run_bind, hresult]
  exact ⟨hresult', hview'.trans hview⟩

/-- What an unseen operation returns may differ from state to state. -/
theorem after {x : StateM σ α} {f : α → Action (StateM σ) β} {r : Except (Failure Error) β}
    (hx : Unseen view x) (hf : ∀ s, Yields view (f (x.run s).1) r) :
    Yields view (liftM x >>= f) r := by
  intro s
  obtain ⟨hresult, hview⟩ := hf s (x.run s).2
  exact ⟨hresult, hview.trans (hx s)⟩

/-- It does not matter which of two actions is taken if both end alike without a trace. -/
theorem ite {c : Prop} [Decidable c] {x y : Action (StateM σ) α} {r : Except (Failure Error) α}
    (hx : Yields view x r) (hy : Yields view y r) : Yields view (if c then x else y) r := by
  by_cases hc : c
  · rwa [if_pos hc]
  · rwa [if_neg hc]

/-- Asking for a value leaves no trace. -/
theorem demand {ε : Type} (view : σ → ν) (embed : ε → Error) (r : Except ε α) :
    Yields view (demand embed r) (r.mapError fun cause => .error (embed cause)) := by
  cases r with
  | ok a => exact pure view a
  | error cause => exact throw view _

/-- Asking for a value that may be a fault leaves no trace. -/
theorem demandSound {ε : Type} (view : σ → ν) (embed : ε → Error) (r : Except (Failure ε) α) :
    Yields view (demandSound embed r) (r.mapError (Failure.map embed)) := by
  cases r with
  | ok a => exact pure view a
  | error failure => exact throw view _

/-- A loop whose rounds leave no trace leaves none. -/
theorem forIn {xs : List α} {f : α → Unit → Action (StateM σ) (ForInStep Unit)}
    (hbody : ∀ a ∈ xs, Yields view (f a ()) (.ok (.yield ()))) :
    Yields view (forIn xs () f) (.ok ()) := by
  induction xs with
  | nil => exact pure view ()
  | cons a xs ih =>
    obtain ⟨ha, hrest⟩ := List.forall_mem_cons.mp hbody
    rw [List.forIn_cons]
    exact bind ha (ih hrest)

end Yields

/-- Two actions with the same effect on what shows: from states that show the same
    they end with the same blameless result, in states that show the same. -/
def Indistinguishable (view : σ → ν) (P : α → Prop) (x y : Action (StateM σ) α) : Prop :=
  ∀ s t, view s = view t → (x.run.run s).1 = (y.run.run t).1 ∧ Blameless P (x.run.run s).1 ∧
    view (x.run.run s).2 = view (y.run.run t).2

namespace Indistinguishable

variable {P : α → Prop} {Q : β → Prop}

/-- Actions that end alike without a trace cannot be told apart. -/
theorem of_yields {x y : Action (StateM σ) α} {r : Except (Failure Error) α}
    (hx : Yields view x r) (hy : Yields view y r) (hr : Blameless P r) :
    Indistinguishable view P x y := by
  intro s t hview
  obtain ⟨hresult, hscene⟩ := hx s
  obtain ⟨hresult', hscene'⟩ := hy t
  rw [hresult, hresult', hscene, hscene']
  exact ⟨rfl, hr, hview⟩

theorem pure (view : σ → ν) {a : α} (ha : P a) : Indistinguishable view P (pure a) (pure a) :=
  of_yields (.pure view a) (.pure view a) ha

theorem throw (view : σ → ν) {failure : Failure Error}
    (hfailure : ∀ label, failure ≠ .error (.verification label)) :
    Indistinguishable view (fun _ => False) (throw failure : Action (StateM σ) α)
      (throw failure) :=
  of_yields (.throw view failure) (.throw view failure) hfailure

/-- What is known of the value may be forgotten. -/
theorem weaken {x y : Action (StateM σ) α} (h : Indistinguishable view P x y) :
    Indistinguishable view (fun _ => True) x y := by
  intro s t hview
  obtain ⟨hresult, hblameless, hscene⟩ := h s t hview
  refine ⟨hresult, ?_, hscene⟩
  cases hend : (x.run.run s).1 with
  | ok a => trivial
  | error failure =>
    rw [hend] at hblameless
    exact hblameless

/-- A determined operation cannot be told apart from itself, from whatever states that
    show the same. -/
theorem of_determined {x : StateM σ α} (hx : Determined view x) :
    Indistinguishable view (fun _ => True) (liftM x) (liftM x) := by
  intro s t hview
  obtain ⟨hresult, hscene⟩ := hx s t hview
  exact ⟨congrArg Except.ok hresult, trivial, hscene⟩

/-- If the first steps cannot be told apart, then the second steps only have to agree on
    the value that both have come to. -/
theorem bind {x y : Action (StateM σ) α} {f g : α → Action (StateM σ) β}
    (hx : Indistinguishable view P x y)
    (hf : ∀ a, P a → Indistinguishable view Q (f a) (g a)) :
    Indistinguishable view Q (x >>= f) (y >>= g) := by
  intro s t hview
  obtain ⟨hresult, hblameless, hscene⟩ := hx s t hview
  rw [run_bind, run_bind, ← hresult]
  cases hend : (x.run.run s).1 with
  | error failure =>
    rw [hend] at hblameless
    exact ⟨rfl, hblameless, hscene⟩
  | ok a =>
    rw [hend] at hblameless
    exact hf a hblameless _ _ hscene

theorem demand {ε : Type} (view : σ → ν) {embed : ε → Error}
    (hembed : ∀ cause label, embed cause ≠ .verification label) (r : Except ε α) :
    Indistinguishable view (r = .ok ·) (demand embed r) (demand embed r) := by
  apply of_yields (.demand view embed r) (.demand view embed r)
  exact blameless_mapError (fun cause label h => hembed cause label (Failure.error.inj h)) r

theorem demandSound {ε : Type} (view : σ → ν) {embed : ε → Error}
    (hembed : ∀ cause label, embed cause ≠ .verification label) (r : Except (Failure ε) α) :
    Indistinguishable view (r = .ok ·) (demandSound embed r) (demandSound embed r) :=
  of_yields (.demandSound view embed r) (.demandSound view embed r)
    (blameless_mapError (map_ne_verification hembed) r)

/-- What an unseen operation returns may differ between the two. -/
theorem after {x : StateM σ α} {f g : α → Action (StateM σ) β} (hx : Unseen view x)
    (hf : ∀ s t, Indistinguishable view Q (f (x.run s).1) (g (x.run t).1)) :
    Indistinguishable view Q (liftM x >>= f) (liftM x >>= g) := by
  intro s t hview
  have hscene : view (x.run s).2 = view (x.run t).2 := by rw [hx, hx, hview]
  exact hf s t _ _ hscene

/-- Taking the same branch of two choices that agree shows nothing. -/
theorem ite {c : Prop} [Decidable c] {x y x' y' : Action (StateM σ) α}
    (hx : Indistinguishable view P x y) (hx' : Indistinguishable view P x' y') :
    Indistinguishable view P (if c then x else x') (if c then y else y') := by
  by_cases hc : c
  · rwa [if_pos hc, if_pos hc]
  · rwa [if_neg hc, if_neg hc]

/-- Loops whose bodies cannot be told apart cannot be told apart. -/
theorem forIn {xs : List α} {f g : α → β → Action (StateM σ) (ForInStep β)}
    (hbody : ∀ a ∈ xs, ∀ b, Indistinguishable view (fun _ => True) (f a b) (g a b)) (b : β) :
    Indistinguishable view (fun _ => True) (forIn xs b f) (forIn xs b g) := by
  induction xs generalizing b with
  | nil => exact pure view trivial
  | cons a xs ih =>
    obtain ⟨ha, hrest⟩ := List.forall_mem_cons.mp hbody
    rw [List.forIn_cons, List.forIn_cons]
    apply (ha b).bind
    intro step _
    cases step with
    | done b => exact pure view trivial
    | yield b => exact ih hrest b

end Indistinguishable

end Actions

end Clausal.Command
