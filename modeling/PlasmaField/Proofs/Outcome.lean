import Mathlib
import PlasmaField.Error

/-!
# Calculations that may fail

A calculation with several steps succeeds when each step does. The lemmas below take apart the
equation that says so: `bind_eq_ok_iff` for a step followed by others, `guard_eq_ok_iff` for a test
that ends the calculation, and `forall₂_of_mapM` for one step for every member of a list. Two
calculations end `Alike` when they fail with the same error or succeed with related results; this
too is shown step by step.
-/

namespace PlasmaField.Outcome

variable {ε β γ : Type}

/-- Two steps succeed when the first does and the second does on its result. -/
theorem bind_eq_ok_iff {a : Except ε β} {g : β → Except ε γ} {r : γ} :
    a >>= g = .ok r ↔ ∃ b, a = .ok b ∧ g b = .ok r := by
  cases a <;> simp [bind, Except.bind]

/-- A step whose result is changed succeeds when the step does. -/
theorem map_eq_ok_iff {a : Except ε β} {f : β → γ} {r : γ} :
    a.map f = .ok r ↔ ∃ b, a = .ok b ∧ f b = r := by
  cases a <;> simp [Except.map]

/-- A calculation passes a test when the test finds nothing and the rest succeeds. -/
theorem guard_eq_ok_iff {c : Prop} [Decidable c] {e : ε} {g : Unit → Except ε γ} {r : γ} :
    (if c then throw e >>= g else g ()) = .ok r ↔ ¬ c ∧ g () = .ok r := by
  split <;> simp [*, throw, throwThe, MonadExceptOf.throw, bind, Except.bind]

/-- Two calculations with one first step agree if they do on its result. -/
theorem bind_congr {a : Except ε β} {f g : β → Except ε γ} (h : ∀ b, a = .ok b → f b = g b) :
    a >>= f = a >>= g := by
  cases a with
  | error e => rfl
  | ok b => exact h b rfl

/-- A calculation that is seen to succeed has a result. -/
theorem exists_of_isOk {a : Except ε β} (h : a.isOk = true) : ∃ r, a = .ok r := by
  cases a with
  | error e => cases h
  | ok r => exact ⟨r, rfl⟩

/-- Steps that all succeed give the list of their results. -/
theorem mapM_eq_map {g : β → Except ε γ} {r : β → γ} {l : List β}
    (h : ∀ a ∈ l, g a = .ok (r a)) : l.mapM g = .ok (l.map r) := by
  induction l with
  | nil => rfl
  | cons a l ih =>
      rw [List.mapM_cons, h a List.mem_cons_self, ih fun b hb ↦ h b (List.mem_cons_of_mem a hb)]
      rfl

/-- Steps that all succeed give a list of results. -/
theorem exists_mapM {g : β → Except ε γ} {l : List β} (h : ∀ a ∈ l, ∃ b, g a = .ok b) :
    ∃ r, r.length = l.length ∧ l.mapM g = .ok r := by
  induction l with
  | nil => exact ⟨[], rfl, rfl⟩
  | cons a l ih =>
      obtain ⟨b, hb⟩ := h a List.mem_cons_self
      obtain ⟨r, hlength, hr⟩ := ih fun a' ha' ↦ h a' (List.mem_cons_of_mem a ha')
      refine ⟨b :: r, congrArg Nat.succ hlength, ?_⟩
      rw [List.mapM_cons, hb, hr]
      rfl

/-- A list of results comes from steps that all succeed. -/
theorem forall₂_of_mapM {g : β → Except ε γ} {l : List β} {r : List γ} (h : l.mapM g = .ok r) :
    List.Forall₂ (fun a b ↦ g a = .ok b) l r := by
  induction l generalizing r with
  | nil =>
      cases h
      exact .nil
  | cons a l ih =>
      rw [List.mapM_cons] at h
      obtain ⟨b, hhead, h⟩ := bind_eq_ok_iff.mp h
      obtain ⟨rest, htail, h⟩ := bind_eq_ok_iff.mp h
      cases h
      exact .cons hhead (ih htail)

/-- Every member of a list of results comes from a step. -/
theorem exists_of_mem_mapM {g : β → Except ε γ} {l : List β} {r : List γ} (h : l.mapM g = .ok r)
    {b : γ} (hb : b ∈ r) : ∃ a ∈ l, g a = .ok b := by
  have hall := forall₂_of_mapM h
  clear h
  induction hall with
  | nil => cases hb
  | cons hhead _ ih =>
      rcases List.mem_cons.mp hb with rfl | hb
      · exact ⟨_, List.mem_cons_self, hhead⟩
      · obtain ⟨a, ha, hstep⟩ := ih hb
        exact ⟨a, List.mem_cons_of_mem _ ha, hstep⟩

/-- The results of steps for consecutive numbers, each in its place. -/
theorem getD_of_mapM_range {g : ℕ → Except ε γ} {n : ℕ} {r : List γ}
    (h : (List.range n).mapM g = .ok r) (default : γ) {i : ℕ} (hi : i < n) :
    g i = .ok (r.toArray.getD i default) := by
  obtain ⟨hlength, hall⟩ := List.forall₂_iff_get.mp (forall₂_of_mapM h)
  rw [List.length_range] at hlength
  have hr : i < r.length := hlength ▸ hi
  simpa [hr] using hall i (by simpa using hi) hr

/-! ## Calculations that end alike -/

/-- Two calculations end alike: both fail with one error, or both succeed with related results. -/
inductive Alike {γ : Type} (r : β → γ → Prop) : Except ε β → Except ε γ → Prop
  | error (e : ε) : Alike r (.error e) (.error e)
  | ok {b : β} {c : γ} (h : r b c) : Alike r (.ok b) (.ok c)

namespace Alike

variable {β' γ' : Type} {r : β → β' → Prop} {s : γ → γ' → Prop} {a : Except ε β} {a' : Except ε β'}
  {f : β → Except ε γ} {f' : β' → Except ε γ'}

/-- A calculation ends like itself. -/
theorem refl {r : β → β → Prop} (h : ∀ b, r b b) (a : Except ε β) : Alike r a a := by
  cases a with
  | error e => exact .error e
  | ok b => exact .ok (h b)

/-- Calculations whose first steps end alike end alike if the rest does. -/
theorem bind (h : Alike r a a')
    (hrest : ∀ b b', a = .ok b → a' = .ok b' → r b b' → Alike s (f b) (f' b')) :
    Alike s (a >>= f) (a' >>= f') := by
  cases h with
  | error e => exact .error e
  | ok h => exact hrest _ _ rfl rfl h

/-- Calculations with one first step end alike if the rest does. -/
theorem step {a₁ a₂ : Except ε β} {f₂ : β → Except ε γ'} (h : a₁ = a₂)
    (hrest : ∀ b, a₁ = .ok b → Alike s (f b) (f₂ b)) : Alike s (a₁ >>= f) (a₂ >>= f₂) := by
  subst h
  cases a₁ with
  | error e => exact .error e
  | ok b => exact hrest b rfl

/-- Calculations with one test end alike if the rest does. -/
theorem guard {c : Prop} [Decidable c] {e : ε} {g : Unit → Except ε γ} {g' : Unit → Except ε γ'}
    (hrest : ¬ c → Alike s (g ()) (g' ())) :
    Alike s (if c then throw e >>= g else g ()) (if c then throw e >>= g' else g' ()) := by
  split
  next => exact .error e
  next h => exact hrest h

/-- Calculations that end alike do so for every relation of their results that follows. -/
theorem imp {r' : β → β' → Prop} (h : Alike r a a')
    (himp : ∀ b b', a = .ok b → a' = .ok b' → r b b' → r' b b') : Alike r' a a' := by
  cases h with
  | error e => exact .error e
  | ok h => exact .ok (himp _ _ rfl rfl h)

/-- Calculations that end alike have the same outcome for all that does not tell the results
apart. -/
theorem map_eq {δ : Type} {view : β → δ} {view' : β' → δ} (h : Alike r a a')
    (hview : ∀ b b', r b b' → view b = view' b') : a.map view = a'.map view' := by
  cases h with
  | error e => rfl
  | ok h => exact congrArg Except.ok (hview _ _ h)

end Alike

end PlasmaField.Outcome
