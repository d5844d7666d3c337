import KVRPC.Aof.LoggerSpec
import KVRPC.Library.Exceptions

/-!
# Which failures are reported as a full log

`HandleBatch` tells a full log from a broken one by the class of the exception. The
helpers of `aof.cpp` never throw `AofCapacityError`; `logBatch` and `rewrite` throw it
only in their checks of the size, before they have touched the file.
-/
namespace KVRPC.Aof

open Library

variable {l : AofLogger} {ms snapshot : List Mutation} {e : Exception} {o : Oracle}

/-- An exception of another class than `AofCapacityError`. -/
def NotFull (e : Exception) : Prop := e.cls ≠ .aofCapacityError

theorem notFull_runtimeError (what : String) : NotFull (runtimeError what) := by
  simp [NotFull, runtimeError]

theorem raises_writeExact (fd : Nat) (data : Bytes) :
    Sys.Raises NotFull (writeExact fd data) := by
  intro o fs e h
  unfold writeExact at h
  induction o generalizing data fs with
  | reliable => cases data <;> cases h
  | crash => cases data <;> cases h
  | next head o ih =>
    cases data with
    | nil => cases h
    | cons b data =>
      cases head with
      | ok => cases h
      | short k => exact ih _ _ h
      | eintr => exact ih _ _ h
      | fail =>
        cases h
        exact notFull_runtimeError _

theorem raises_sync : Sys.Raises NotFull sync :=
  (Sys.raises_callUninterrupted id).bind fun _ =>
    Sys.raises_ite (fun _ => Sys.raises_pure ()) fun _ =>
      Sys.raises_throw (notFull_runtimeError _)

theorem raises_syncDirectory : Sys.Raises NotFull syncDirectory :=
  (Sys.raises_call id).bind fun _ =>
    Sys.raises_ite (fun _ => raises_sync) fun _ => Sys.raises_throw (notFull_runtimeError _)

namespace AofLogger

theorem raises_onFs {α : Type} {m : Sys Exception Fs α} (h : Sys.Raises NotFull m) :
    Sys.Raises NotFull (onFs m) := h.zoom _ _

theorem raises_writeAll (fd : Nat) (ms : List Mutation) :
    Sys.Raises NotFull (writeAll fd ms) :=
  Sys.raises_forEach fun _ _ => (Sys.raises_lift fun _ => encode_error_cls).bind fun _ =>
    raises_onFs (raises_writeExact fd _)

theorem raises_writeReplacement (path : String) (fd : Nat) (snapshot : List Mutation) :
    Sys.Raises NotFull (writeReplacement path fd snapshot) := by
  refine (raises_onFs (Sys.raises_call id)).bind fun _ => ?_
  refine (raises_onFs (Sys.raises_call id)).bind fun _ => Sys.raises_ite (fun _ => ?_) fun _ => ?_
  · refine (raises_writeAll fd snapshot).bind fun _ => (raises_onFs raises_sync).bind fun _ => ?_
    refine (Sys.raises_call _).bind fun _ => ?_
    refine Sys.raises_ite (fun _ => Sys.raises_pure ()) fun _ => ?_
    exact Sys.raises_throw (notFull_runtimeError _)
  · exact Sys.raises_throw (notFull_runtimeError _)

/-- `logBatch` reports a full log only while the file is as it was. -/
theorem spares_logBatch (ms : List Mutation) (elapsed : Nat) (l : AofLogger) :
    Sys.Spares NotFull (logBatch ms elapsed) l := by
  unfold logBatch
  refine Sys.spares_ite (fun _ => (Sys.raises_pure ()).spares) fun _ => Sys.spares_get_bind ?_
  refine Sys.spares_ite (fun _ => Sys.spares_throw _) fun _ => Sys.spares_lift_bind fun n => ?_
  refine Sys.spares_ite (fun _ => Sys.spares_throw _) fun _ => Sys.Raises.spares ?_
  refine (Sys.raises_modify _).bind fun _ => (Sys.Raises.tryCatch ?_ fun e notFull => ?_).bind
    fun _ => (Sys.raises_modify _).bind fun _ => Sys.raises_modify _
  · exact (raises_writeAll _ _).bind fun _ => (raises_onFs raises_sync).bind fun _ =>
      Sys.raises_modify _
  · exact (Sys.raises_modify _).bind fun _ => Sys.raises_throw notFull

theorem spares_rewrite (snapshot : List Mutation) (l : AofLogger) :
    Sys.Spares NotFull (rewrite snapshot) l := by
  unfold rewrite
  refine Sys.spares_get_bind (Sys.spares_ite (fun _ => Sys.spares_throw _) fun _ => ?_)
  refine Sys.spares_lift_bind fun n => Sys.spares_ite (fun _ => Sys.spares_throw _) fun _ => ?_
  refine ((raises_onFs (Sys.raises_call _)).bind fun _ => Sys.raises_ite (fun _ => ?_)
    fun _ => Sys.raises_throw (notFull_runtimeError _)).spares
  refine Sys.Raises.bind (Sys.Raises.tryCatch (raises_writeReplacement _ _ _) fun e notFull => ?_)
    fun _ => ?_
  · exact (raises_onFs (Sys.raises_call _)).bind fun _ =>
      (raises_onFs (Sys.raises_call _)).bind fun _ => Sys.raises_throw notFull
  · refine (raises_onFs (Sys.raises_call _)).bind fun _ => (Sys.raises_modify _).bind fun _ => ?_
    refine Sys.Raises.bind (Sys.Raises.tryCatch (raises_onFs raises_syncDirectory)
      fun e notFull => ?_) fun _ => Sys.raises_modify _
    exact (Sys.raises_modify _).bind fun _ => Sys.raises_throw notFull

end AofLogger
end KVRPC.Aof
