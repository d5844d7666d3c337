import KVRPC.Library.Sys

/-!
# What a program can throw

`Raises P m` bounds the exceptions of a program, whatever the environment does and from
every state. The rules follow the constructors of programs, so that the bound of a method
comes from those of the calls it makes.
-/
namespace KVRPC.Library.Sys

variable {ε σ τ α β : Type} {P : ε → Prop}

/-- Every exception of the program satisfies `P`. -/
def Raises (P : ε → Prop) (m : Sys ε σ α) : Prop := ∀ o s e, (m o s).1 = .throw e → P e

theorem raises_pure (a : α) : Raises P (pure a : Sys ε σ α) := by
  rintro o s e ⟨⟩

theorem raises_modify (f : σ → σ) : Raises P (modify f : Sys ε σ Unit) := by
  rintro o s e ⟨⟩

theorem raises_throw {e : ε} (h : P e) : Raises P (throw e : Sys ε σ α) := by
  rintro o s e ⟨⟩
  exact h

theorem raises_lift {x : Except ε α} (h : ∀ e, x = .error e → P e) :
    Raises P (lift x : Sys ε σ α) := by
  cases x with
  | ok a => exact raises_pure a
  | error e => exact raises_throw (h e rfl)

theorem raises_call (effect : σ → σ) : Raises P (call effect : Sys ε σ Bool) := by
  rintro (_ | _ | ⟨head, o⟩) s e h
  · cases h
  · cases h
  · cases head <;> cases h

theorem raises_callUninterrupted (effect : σ → σ) :
    Raises P (callUninterrupted effect : Sys ε σ Bool) := by
  intro o s e h
  induction o with
  | reliable => cases h
  | crash => cases h
  | next head o ih =>
    cases head with
    | eintr => exact ih h
    | ok | short | fail => cases h

theorem Raises.bind {m : Sys ε σ α} {f : α → Sys ε σ β} (first : Raises P m)
    (rest : ∀ a, Raises P (f a)) : Raises P (m >>= f) := by
  intro o s e h
  have first := first o s
  change (Sys.bind m f o s).1 = .throw e at h
  unfold Sys.bind at h
  generalize m o s = stop at first h
  obtain ⟨a | e' | _, o', s'⟩ := stop
  · exact rest a o' s' e h
  · cases h
    exact first e rfl
  · cases h

/-- A handler may count on what the guarded part can throw. -/
theorem Raises.tryCatch {m : Sys ε σ α} {handler : ε → Sys ε σ α} (guarded : Raises P m)
    (handled : ∀ e, P e → Raises P (handler e)) : Raises P (tryCatch m handler) := by
  intro o s e h
  have guarded := guarded o s
  unfold Sys.tryCatch at h
  generalize m o s = stop at guarded h
  obtain ⟨a | e' | _, o', s'⟩ := stop
  · cases h
  · exact handled e' (guarded e' rfl) o' s' e h
  · cases h

theorem Raises.zoom {m : Sys ε τ α} (h : Raises P m) (view : σ → τ) (put : τ → σ → σ) :
    Raises P (zoom view put m) := fun o s e thrown => h o (view s) e thrown

theorem raises_forEach {bs : List β} {f : β → Sys ε σ Unit} (h : ∀ b ∈ bs, Raises P (f b)) :
    Raises P (forEach bs f) := by
  induction bs with
  | nil => exact raises_pure ()
  | cons b bs ih =>
    exact (h b List.mem_cons_self).bind fun _ => ih fun c hc => h c (List.mem_cons_of_mem b hc)

theorem raises_ite {p : Prop} [Decidable p] {m m' : Sys ε σ α} (yes : p → Raises P m)
    (no : ¬ p → Raises P m') : Raises P (if p then m else m') := by
  split
  · exact yes ‹_›
  · exact no ‹_›

/-! ## Exceptions that leave no trace -/

/-- From `s`, an exception outside `P` leaves the state as it was. -/
def Spares (P : ε → Prop) (m : Sys ε σ α) (s : σ) : Prop :=
  ∀ o e, (m o s).1 = .throw e → P e ∨ (m o s).2.2 = s

variable {s : σ}

theorem Raises.spares {m : Sys ε σ α} (h : Raises P m) : Spares P m s :=
  fun o e thrown => Or.inl (h o s e thrown)

theorem spares_throw (e : ε) : Spares P (throw e : Sys ε σ α) s := fun _ _ _ => Or.inr rfl

theorem spares_get_bind {f : σ → Sys ε σ β} (h : Spares P (f s) s) : Spares P (get >>= f) s := h

theorem spares_lift_bind {x : Except ε α} {f : α → Sys ε σ β} (h : ∀ a, Spares P (f a) s) :
    Spares P (lift x >>= f) s := by
  cases x with
  | ok a => exact h a
  | error e => exact spares_throw e

theorem spares_ite {p : Prop} [Decidable p] {m m' : Sys ε σ α} (yes : p → Spares P m s)
    (no : ¬ p → Spares P m' s) : Spares P (if p then m else m') s := by
  split
  · exact yes ‹_›
  · exact no ‹_›

theorem wp.spares {R : Regime} {m : Sys ε σ α} {Q : Res ε α → σ → Prop} (h : wp R m Q s)
    (spared : Spares P m s) :
    wp R m (fun r t => Q r t ∧ ∀ e, r = .throw e → P e ∨ t = s) s :=
  fun o ho => ⟨(h o ho).1, (h o ho).2, spared o⟩

end KVRPC.Library.Sys
