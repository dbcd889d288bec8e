import OutOfOrder.Machine.Cycle

/-!
Computations that may fail: what a successful one has done on its way, and what a loop keeps.
-/

set_option autoImplicit false

namespace OutOfOrder

theorem bind_eq_ok_iff {ε α β : Type} {x : Except ε α} {f : α → Except ε β} {b : β} :
    (x >>= f) = .ok b ↔ ∃ a, x = .ok a ∧ f a = .ok b := by
  cases x <;> simp [bind, Except.bind]

theorem map_eq_ok_iff {ε α β : Type} {x : Except ε α} {f : α → β} {b : β} :
    x.map f = .ok b ↔ ∃ a, x = .ok a ∧ f a = b := by
  cases x <;> simp [Except.map]

theorem pure_eq_ok_iff {ε α : Type} {a b : α} : (pure a : Except ε α) = .ok b ↔ a = b := by
  simp [pure, Except.pure]

theorem toOption_eq_some_iff {ε α : Type} {x : Except ε α} {a : α} :
    x.toOption = some a ↔ x = .ok a := by
  cases x <;> simp [Except.toOption]

theorem guarded_eq_ok_iff {α : Type} {x : Except Breach α} {a : α} :
    Halt.guarded x = .ok a ↔ x = .ok a := by
  cases x <;> simp [Halt.guarded]

theorem size_writeAt {α : Type} {xs ys : Array α} {i : Nat} {x : α} (h : writeAt xs i x = .ok ys) :
    ys.size = xs.size := by
  unfold writeAt at h
  split at h
  · obtain rfl := Except.ok.inj h
    simp
  · simp at h

/-- What the state and the rest of the list satisfy together, and one round keeps, holds at the end with
nothing left. -/
theorem foldlM_keeps {ε σ β : Type} {f : σ → β → Except ε σ} (kept : List β → σ → Prop)
    (round : ∀ x rest s s', kept (x :: rest) s → f s x = .ok s' → kept rest s')
    {xs : List β} {s s' : σ} (h : kept xs s) (hf : xs.foldlM f s = .ok s') : kept [] s' := by
  induction xs generalizing s with
  | nil =>
    have hs : s = s' := by simpa [pure_eq_ok_iff] using hf
    exact hs ▸ h
  | cons x rest ih =>
    rw [List.foldlM_cons, bind_eq_ok_iff] at hf
    obtain ⟨middle, hm, hrest⟩ := hf
    exact ih (round x rest s middle h hm) hrest

end OutOfOrder
