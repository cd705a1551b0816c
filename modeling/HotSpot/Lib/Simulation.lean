import Mathlib.Init

/-! # Programs with a state that may fail

Rules for programs of `Except ε` and `StateT σ (Except ε)`: how they conclude, and what they
ensure when they succeed.
-/

namespace HotSpot

universe u

variable {σ ε α β : Type u}

theorem bind_ok (a : α) (f : α → Except ε β) : (Except.ok a >>= f) = f a := rfl

theorem bind_eq_ok {x : Except ε α} {f : α → Except ε β} {y : β} (h : x >>= f = .ok y) :
    ∃ a, x = .ok a ∧ f a = .ok y := by
  cases x with
  | error e => cases h
  | ok a => exact ⟨a, rfl, h⟩

/-- The program succeeds with `Q` or fails with `E`. -/
def Concludes (E : ε → Prop) (x : Except ε α) (Q : α → Prop) : Prop :=
  match x with
  | .ok a => Q a
  | .error e => E e

namespace Concludes

variable {E E' : ε → Prop} {x : Except ε α} {Q Q' : α → Prop}

theorem ok {a : α} (h : Q a) : Concludes E (.ok a) Q := h

theorem error {e : ε} (h : E e) : Concludes E (.error e : Except ε α) Q := h

theorem bind {f : α → Except ε β} {R : β → Prop} (hx : Concludes E x Q)
    (hf : ∀ a, Q a → Concludes E (f a) R) : Concludes E (x >>= f) R := by
  cases x with
  | ok a => exact hf a hx
  | error e => exact hx

theorem weaken (hx : Concludes E x Q) (hE : ∀ e, E e → E' e) (hQ : ∀ a, Q a → Q' a) :
    Concludes E' x Q' := by
  cases x with
  | ok a => exact hQ a hx
  | error e => exact hE e hx

theorem and (hx : Concludes E x Q) (hx' : Concludes (fun _ => True) x Q') :
    Concludes E x fun a => Q a ∧ Q' a := by
  cases x with
  | ok a => exact ⟨hx, hx'⟩
  | error e => exact hx

theorem of_ok {a : α} (hx : Concludes E x Q) (h : x = .ok a) : Q a := by
  subst h
  exact hx

/-- What holds when the program succeeds, however it fails. -/
theorem of_run (h : ∀ a, x = .ok a → Q a) : Concludes (fun _ => True) x Q := by
  cases x with
  | ok a => exact h a rfl
  | error e => trivial

end Concludes

/-! ## Programs that differ only where something is lost -/

/-- The program fails or ends badly. -/
def Lost (bad : α → Prop) (x : Except ε α) : Prop := Concludes (fun _ => True) x bad

/-- Two programs do the same, or both are lost. -/
def AgreesUnlessLost (bad : α → Prop) (x y : Except ε α) : Prop :=
  x = y ∨ Lost bad x ∧ Lost bad y

/-- Two programs from the state `s` that do the same or are both lost, and are both lost if `s`
is. The state that they end in is read from their results. -/
structure Follows (bad : σ → Prop) (state : α → σ) (s : σ) (x y : Except ε α) : Prop where
  agrees : AgreesUnlessLost (bad ∘ state) x y
  keeps : bad s → Lost (bad ∘ state) x ∧ Lost (bad ∘ state) y

namespace Follows

variable {bad : σ → Prop} {state : α → σ} {state' : β → σ} {s : σ} {x y : Except ε α}

theorem refl (h : bad s → Lost (bad ∘ state) x) : Follows bad state s x x :=
  ⟨Or.inl rfl, fun hs => ⟨h hs, h hs⟩⟩

theorem lost (hx : Lost (bad ∘ state) x) (hy : Lost (bad ∘ state) y) :
    Follows bad state s x y := ⟨Or.inr ⟨hx, hy⟩, fun _ => ⟨hx, hy⟩⟩

theorem ok {a : α} (h : bad s → bad (state a)) : Follows bad state s (.ok a) (.ok a : Except ε α) :=
  refl h

theorem error {e e' : ε} : Follows bad state s (.error e) (.error e' : Except ε α) :=
  lost trivial trivial

/-- A program that leaves the state as it is. -/
theorem read (x : Except ε α) : Follows bad (fun _ => s) s x x :=
  refl fun hs => Concludes.of_run fun _ _ => hs

theorem bind {f g : α → Except ε β} (h : Follows bad state s x y)
    (hfg : ∀ a, Follows bad state' (state a) (f a) (g a)) :
    Follows bad state' s (x >>= f) (y >>= g) := by
  have hlost : Lost (bad ∘ state) x ∧ Lost (bad ∘ state) y →
      Lost (bad ∘ state') (x >>= f) ∧ Lost (bad ∘ state') (y >>= g) := fun hxy =>
    ⟨Concludes.bind hxy.1 fun a ha => ((hfg a).keeps ha).1,
      Concludes.bind hxy.2 fun a ha => ((hfg a).keeps ha).2⟩
  refine ⟨?_, fun hs => hlost (h.keeps hs)⟩
  rcases h.agrees with rfl | hxy
  · cases x with
    | error e => exact Or.inl rfl
    | ok a => exact (hfg a).agrees
  · exact Or.inr (hlost hxy)

end Follows

/-- Two programs in sequence succeed when both do. -/
theorem run_bind_eq_ok {a : StateT σ (Except ε) α} {f : α → StateT σ (Except ε) β} {s s' : σ}
    {y : β} (h : (a >>= f).run s = .ok (y, s')) :
    ∃ x s₁, a.run s = .ok (x, s₁) ∧ (f x).run s₁ = .ok (y, s') := by
  obtain ⟨xs, hx, hy⟩ := bind_eq_ok h
  exact ⟨xs.1, xs.2, hx, hy⟩

/-- From a state with `P`, the program `a` fails or ends with `Q`. -/
def Ensures (P : σ → Prop) (a : StateT σ (Except ε) α) (Q : α → σ → Prop) : Prop :=
  ∀ s, P s → ∀ x s', a.run s = .ok (x, s') → Q x s'

end HotSpot
