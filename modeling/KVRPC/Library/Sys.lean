import Mathlib.Tactic

/-!
# Programs that make system calls

A program runs against an oracle that decides every system call and may end the
process before any of them. An oracle is a finite script followed by a crash or by an
environment that only succeeds, so every loop that retries a call is total.

Exceptions keep the state reached when they were thrown, as C++ member functions do,
and a crash cannot be caught. `wp` is the weakest precondition of a program over all
oracles of a regime: `faulty` allows everything, `faultless` only complete or partial
success and interruptions.
-/
namespace KVRPC.Library

/-- What the environment does with one system call. A transfer that comes out `short k`
moves `k + 1` octets at most. -/
inductive Outcome where
  | ok
  | short (k : Nat)
  | eintr
  | fail
  deriving DecidableEq, Repr

inductive Oracle where
  | reliable
  | crash
  | next (head : Outcome) (rest : Oracle)
  deriving DecidableEq, Repr

/-- No call fails and the process is not killed. -/
def Oracle.NoFailure : Oracle → Prop
  | .reliable => True
  | .crash => False
  | .next .fail _ => False
  | .next _ rest => rest.NoFailure

inductive Regime where
  | faulty
  | faultless
  deriving DecidableEq

def Oracle.In (o : Oracle) : Regime → Prop
  | .faulty => True
  | .faultless => o.NoFailure

theorem Oracle.In.rest {R : Regime} {head : Outcome} {o : Oracle}
    (h : (Oracle.next head o).In R) : o.In R := by
  cases R with
  | faulty => trivial
  | faultless => cases head <;> first | exact h | exact h.elim

theorem Oracle.In.faulty_of_fail {R : Regime} {o : Oracle}
    (h : (Oracle.next .fail o).In R) : R = .faulty := by
  cases R with
  | faulty => rfl
  | faultless => exact h.elim

theorem Oracle.In.faulty_of_crash {R : Regime} (h : Oracle.crash.In R) : R = .faulty := by
  cases R with
  | faulty => rfl
  | faultless => exact h.elim

inductive Res (ε α : Type) where
  | ok (a : α)
  | throw (e : ε)
  | crash
  deriving DecidableEq, Repr

/-- It returned, and what it returned has the property. -/
def Res.Returns {ε α : Type} (P : α → Prop) : Res ε α → Prop
  | .ok a => P a
  | _ => False

instance {ε α : Type} (P : α → Prop) [DecidablePred P] (r : Res ε α) : Decidable (r.Returns P) :=
  match r with
  | .ok a => inferInstanceAs (Decidable (P a))
  | .throw _ | .crash => isFalse id

theorem Res.returns_iff {ε α : Type} {P : α → Prop} {r : Res ε α} :
    r.Returns P ↔ ∃ a, r = .ok a ∧ P a := by
  cases r <;> simp [Res.Returns]

def Res.map {ε α β : Type} (f : α → β) : Res ε α → Res ε β
  | .ok a => .ok (f a)
  | .throw e => .throw e
  | .crash => .crash

theorem Res.map_ne_crash {ε α β : Type} {f : α → β} {r : Res ε α} (h : r.map f ≠ .crash) :
    r ≠ .crash := by
  rintro rfl
  exact h rfl

/-- The result of a computation that makes no call. -/
def Res.ofExcept {ε α : Type} : Except ε α → Res ε α
  | .ok a => .ok a
  | .error e => .throw e

theorem Res.ok_eq_ofExcept {ε α : Type} {x : Except ε α} {a : α} :
    Res.ok a = .ofExcept x ↔ x = .ok a := by
  cases x <;> simp [Res.ofExcept, eq_comm]

theorem Res.throw_eq_ofExcept {ε α : Type} {x : Except ε α} {e : ε} :
    Res.throw e = .ofExcept x ↔ x = .error e := by
  cases x <;> simp [Res.ofExcept, eq_comm]

theorem Res.crash_ne_ofExcept {ε α : Type} (x : Except ε α) : Res.crash ≠ .ofExcept x := by
  cases x <;> simp [Res.ofExcept]

/-- Programs with state `σ`, exceptions `ε` and result `α`. -/
def Sys (ε σ α : Type) : Type := Oracle → σ → Res ε α × Oracle × σ

namespace Sys

variable {ε σ τ α β : Type}

protected def pure (a : α) : Sys ε σ α := fun o s => (.ok a, o, s)

protected def bind (m : Sys ε σ α) (f : α → Sys ε σ β) : Sys ε σ β := fun o s =>
  match m o s with
  | (.ok a, o, s) => f a o s
  | (.throw e, o, s) => (.throw e, o, s)
  | (.crash, o, s) => (.crash, o, s)

instance : Monad (Sys ε σ) where
  pure := Sys.pure
  bind := Sys.bind

def throw (e : ε) : Sys ε σ α := fun o s => (.throw e, o, s)

def get : Sys ε σ σ := fun o s => (.ok s, o, s)

def modify (f : σ → σ) : Sys ε σ Unit := fun o s => (.ok (), o, f s)

/-- A computation that makes no call. -/
def lift : Except ε α → Sys ε σ α
  | .ok a => Sys.pure a
  | .error e => Sys.throw e

/-- `try m catch (...)`; a crash passes through. -/
def tryCatch (m : Sys ε σ α) (handler : ε → Sys ε σ α) : Sys ε σ α := fun o s =>
  match m o s with
  | (.throw e, o, s) => handler e o s
  | (.ok a, o, s) => (.ok a, o, s)
  | (.crash, o, s) => (.crash, o, s)

/-- Run a program on one component of a larger state. -/
def zoom (view : σ → τ) (put : τ → σ → σ) (m : Sys ε τ α) : Sys ε σ α := fun o s =>
  ((m o (view s)).1, (m o (view s)).2.1, put (m o (view s)).2.2 s)

/-- Change what a program returns. -/
def map (f : α → β) (m : Sys ε σ α) : Sys ε σ β := fun o s => ((m o s).1.map f, (m o s).2)

def forEach : List β → (β → Sys ε σ Unit) → Sys ε σ Unit
  | [], _ => Sys.pure ()
  | b :: bs, f => Sys.bind (f b) fun _ => forEach bs f

/-- A call that either has its whole effect or none, and says which. -/
def call (effect : σ → σ) : Sys ε σ Bool
  | .reliable, s => (.ok true, .reliable, effect s)
  | .crash, s => (.crash, .crash, s)
  | .next .fail o, s => (.ok false, o, s)
  | .next _ o, s => (.ok true, o, effect s)

/-- Such a call repeated while it is interrupted. -/
def callUninterrupted (effect : σ → σ) : Sys ε σ Bool
  | .reliable, s => (.ok true, .reliable, effect s)
  | .crash, s => (.crash, .crash, s)
  | .next .eintr o, s => callUninterrupted effect o s
  | .next .fail o, s => (.ok false, o, s)
  | .next _ o, s => (.ok true, o, effect s)

/-! ## Results -/

variable {γ : Type}

theorem bind_map (m : Sys ε σ α) (g : α → Sys ε σ β) (f : β → γ) :
    (m >>= fun a => (g a).map f) = (m >>= g).map f := by
  funext o s
  change Sys.bind m (fun a => (g a).map f) o s = (Sys.bind m g).map f o s
  simp only [Sys.bind, Sys.map]
  generalize m o s = stop
  obtain ⟨_ | _ | _, _, _⟩ := stop <;> rfl

/-- What a sequence returns was returned by its last part. -/
theorem bind_returns {m : Sys ε σ α} {f : α → Sys ε σ β} {o : Oracle} {s : σ} {b : β}
    (h : ((m >>= f) o s).1 = .ok b) : ∃ a o' s', (f a o' s').1 = .ok b := by
  change (Sys.bind m f o s).1 = .ok b at h
  unfold Sys.bind at h
  generalize m o s = stop at h
  obtain ⟨a | _ | _, o', s'⟩ := stop
  · exact ⟨a, o', s', h⟩
  · cases h
  · cases h

theorem tryCatch_map (m : Sys ε σ α) (f : α → β) {handler : ε → Sys ε σ α}
    {handler' : ε → Sys ε σ β} (h : ∀ e, handler' e = (handler e).map f) :
    tryCatch (m.map f) handler' = (tryCatch m handler).map f := by
  funext o s
  simp only [tryCatch, Sys.map, h]
  generalize m o s = stop
  obtain ⟨_ | _ | _, _, _⟩ := stop <;> rfl

/-! ## Weakest preconditions -/

/-- Every oracle of the regime leads from `s` to a result and state in `Q`. -/
def wp (R : Regime) (m : Sys ε σ α) (Q : Res ε α → σ → Prop) (s : σ) : Prop :=
  ∀ o, o.In R → (m o s).2.1.In R ∧ Q (m o s).1 (m o s).2.2

/-- What `f` has to achieve from wherever its predecessor stops. -/
@[reducible] def After (R : Regime) (f : α → Sys ε σ β) (Q : Res ε β → σ → Prop) :
    Res ε α → σ → Prop
  | .ok a, s => wp R (f a) Q s
  | .throw e, s => Q (.throw e) s
  | .crash, s => Q .crash s

variable {R : Regime} {s : σ}

theorem wp.run {m : Sys ε σ α} {Q : Res ε α → σ → Prop} (h : wp R m Q s) {o : Oracle}
    (ho : o.In R) : Q (m o s).1 (m o s).2.2 := (h o ho).2

theorem wp.mono {m : Sys ε σ α} {P Q : Res ε α → σ → Prop} (h : wp R m P s)
    (hPQ : ∀ r t, P r t → Q r t) : wp R m Q s :=
  fun o ho => ⟨(h o ho).1, hPQ _ _ (h o ho).2⟩

theorem wp_pure {a : α} {Q : Res ε α → σ → Prop} (h : Q (.ok a) s) :
    wp R (pure a : Sys ε σ α) Q s := fun _ ho => ⟨ho, h⟩

theorem wp_throw {e : ε} {Q : Res ε α → σ → Prop} (h : Q (.throw e) s) :
    wp R (throw e : Sys ε σ α) Q s := fun _ ho => ⟨ho, h⟩

theorem wp_get {Q : Res ε σ → σ → Prop} (h : Q (.ok s) s) : wp R (get : Sys ε σ σ) Q s :=
  fun _ ho => ⟨ho, h⟩

theorem wp_modify {f : σ → σ} {Q : Res ε Unit → σ → Prop} (h : Q (.ok ()) (f s)) :
    wp R (modify f : Sys ε σ Unit) Q s := fun _ ho => ⟨ho, h⟩

theorem wp_lift {x : Except ε α} {Q : Res ε α → σ → Prop}
    (hok : ∀ a, x = .ok a → Q (.ok a) s) (herr : ∀ e, x = .error e → Q (.throw e) s) :
    wp R (lift x : Sys ε σ α) Q s := by
  cases x with
  | ok a => exact wp_pure (hok a rfl)
  | error e => exact wp_throw (herr e rfl)

theorem wp_bind {m : Sys ε σ α} {f : α → Sys ε σ β} {Q : Res ε β → σ → Prop}
    (h : wp R m (After R f Q) s) : wp R (m >>= f) Q s := by
  intro o ho
  have first := h o ho
  change (Sys.bind m f o s).2.1.In R ∧ Q (Sys.bind m f o s).1 (Sys.bind m f o s).2.2
  unfold Sys.bind
  generalize m o s = stop at first ⊢
  obtain ⟨r | e | _, o', s'⟩ := stop
  · exact first.2 o' first.1
  · exact first
  · exact first

theorem wp_tryCatch {m : Sys ε σ α} {handler : ε → Sys ε σ α} {Q : Res ε α → σ → Prop}
    (h : wp R m (fun r t => match r with
      | .throw e => wp R (handler e) Q t
      | r => Q r t) s) : wp R (tryCatch m handler) Q s := by
  intro o ho
  have first := h o ho
  unfold tryCatch
  generalize m o s = stop at first ⊢
  obtain ⟨r | e | _, o', s'⟩ := stop
  · exact first
  · exact first.2 o' first.1
  · exact first

theorem wp_zoom {view : σ → τ} {put : τ → σ → σ} {m : Sys ε τ α} {Q : Res ε α → σ → Prop}
    (h : wp R m (fun r t => Q r (put t s)) (view s)) : wp R (zoom view put m) Q s :=
  fun o ho => h o ho

theorem wp_call {effect : σ → σ} {Q : Res ε Bool → σ → Prop} (done : Q (.ok true) (effect s))
    (faults : R = .faulty → Q (.ok false) s ∧ Q .crash s) :
    wp R (call effect : Sys ε σ Bool) Q s := by
  rintro (_ | _ | ⟨head, o⟩) ho
  · exact ⟨ho, done⟩
  · exact ⟨ho, (faults ho.faulty_of_crash).2⟩
  · cases head with
    | fail => exact ⟨ho.rest, (faults ho.faulty_of_fail).1⟩
    | ok | short | eintr => exact ⟨ho.rest, done⟩

theorem wp_callUninterrupted {effect : σ → σ} {Q : Res ε Bool → σ → Prop}
    (done : Q (.ok true) (effect s)) (faults : R = .faulty → Q (.ok false) s ∧ Q .crash s) :
    wp R (callUninterrupted effect : Sys ε σ Bool) Q s := by
  intro o ho
  induction o with
  | reliable => exact ⟨ho, done⟩
  | crash => exact ⟨ho, (faults ho.faulty_of_crash).2⟩
  | next head o ih =>
    cases head with
    | eintr => exact ih ho.rest
    | fail => exact ⟨ho.rest, (faults ho.faulty_of_fail).1⟩
    | ok | short => exact ⟨ho.rest, done⟩

/-! ## Straight-line code -/

theorem wp_get_bind {f : σ → Sys ε σ β} {Q : Res ε β → σ → Prop} (h : wp R (f s) Q s) :
    wp R (get >>= f) Q s := wp_bind (wp_get h)

theorem wp_modify_bind {g : σ → σ} {f : Unit → Sys ε σ β} {Q : Res ε β → σ → Prop}
    (h : wp R (f ()) Q (g s)) : wp R (modify g >>= f) Q s := wp_bind (wp_modify h)

theorem wp_lift_bind {x : Except ε α} {f : α → Sys ε σ β} {Q : Res ε β → σ → Prop}
    (hok : ∀ a, x = .ok a → wp R (f a) Q s) (herr : ∀ e, x = .error e → Q (.throw e) s) :
    wp R (lift x >>= f) Q s := wp_bind (wp_lift hok herr)

theorem wp_call_bind {effect : σ → σ} {f : Bool → Sys ε σ β} {Q : Res ε β → σ → Prop}
    (done : wp R (f true) Q (effect s))
    (faults : R = .faulty → wp R (f false) Q s ∧ Q .crash s) :
    wp R (call effect >>= f) Q s := wp_bind (wp_call done faults)

/-- A call whose failure is turned into an exception. -/
theorem wp_call_or_throw {effect : σ → σ} {m : Sys ε σ α} {e : ε} {Q : Res ε α → σ → Prop}
    (done : wp R m Q (effect s)) (faults : R = .faulty → Q (.throw e) s ∧ Q .crash s) :
    wp R (call effect >>= fun ok => if ok = true then m else throw e) Q s :=
  wp_call_bind (by rwa [if_pos rfl])
    fun hR => ⟨by rw [if_neg (by simp)]; exact wp_throw (faults hR).1, (faults hR).2⟩

theorem wp_callUninterrupted_or_throw {effect : σ → σ} {m : Sys ε σ α} {e : ε}
    {Q : Res ε α → σ → Prop} (done : wp R m Q (effect s))
    (faults : R = .faulty → Q (.throw e) s ∧ Q .crash s) :
    wp R (callUninterrupted effect >>= fun ok => if ok = true then m else throw e) Q s := by
  refine wp_bind (wp_callUninterrupted ?_ fun hR => ⟨?_, (faults hR).2⟩)
  · simpa [After] using done
  · simpa [After] using wp_throw (faults hR).1

end Sys
end KVRPC.Library
