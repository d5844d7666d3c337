import KVRPC.System.KvServer

/-!
# Runs of the key-value server

Seen from its log, a machine is a host, and every run of the machine is a run of the host.
Seen from the network, a process is a server whose handler's calls are the calls of the
service, in the order the server accepted the requests.
-/
namespace KVRPC.System

open Library Service Server

variable {k : KvServer} {p : Process} {m m' : Machine} {env : Env} {o : Oracle} {worker : Nat}
  {batch : List (Job Completion)} {fs : Fs} {trace : List (Machine × Event)}

namespace Machine

def host : Machine → Host
  | .down fs => .down fs
  | .up p => .up p.service

/-- What an event means to the service. -/
def incident (k : KvServer) : Machine → Event → Option Incident
  | .down _, .start clock _ => some (.start clock)
  | .up p, .handle worker env o =>
    match p.server.queue.workers[worker]? with
    | some (.running batch) => some (.call (p.call k env o batch).action)
    | _ => none
  | .up _, .stop => some .stop
  | _, _ => none

/-- The incidents of a run. -/
def incidents (k : KvServer) (trace : List (Machine × Event)) : List (Host × Incident) :=
  shown host (incident k) trace

theorem incidents_append (k : KvServer) (xs ys : List (Machine × Event)) :
    incidents k (xs ++ ys) = incidents k xs ++ incidents k ys := shown_append _ _ _ _

end Machine

/-- A process as it is between events. -/
structure Process.Sound (k : KvServer) (p : Process) : Prop where
  reached : ∃ trace, Server.State.Runs k.server trace p.server
  handled : p.server.handled = p.calls.flatMap Call.pairs
  batches : ∀ call ∈ p.calls, call.pairs.map Prod.fst = call.batch

def Machine.Sound (k : KvServer) : Machine → Prop
  | .down _ => True
  | .up p => p.Sound k

theorem Process.Sound.single (h : p.Sound k)
    (busy : p.server.queue.workers[worker]? = some (.running batch)) :
    k.server.batchHandler = false → batch.length = 1 := by
  obtain ⟨trace, run⟩ := h.reached
  obtain ⟨base, -⟩ := run.invariant (fun _ => True) trivial fun _ _ _ _ => trivial
  exact base.queue.single batch (List.mem_of_getElem? busy)

/-- How a call of the handler ends. -/
inductive Handles (k : KvServer) (p : Process) (env : Env) (o : Oracle)
    (batch : List (Job Completion)) (worker : Nat) : Machine → Prop where
  | crashed (result : (p.call k env o batch).result = .crash) :
      Handles k p env o batch worker
        (.down (handleBatch k.codec env (batch.map Job.input) o p.service).2.2.aof.fs)
  | answered {h : Handled} {server : Server.State}
      (result : (p.call k env o batch).result ≠ .crash)
      (taken : p.server.step k.server (.handle worker h) = some server)
      (handled : server.handled = p.server.handled ++ (p.call k env o batch).pairs) :
      Handles k p env o batch worker
        (.up ⟨server, (handleBatch k.codec env (batch.map Job.input) o p.service).2.2,
          p.calls ++ [p.call k env o batch]⟩)

theorem Process.handle_cases (sound : p.Sound k) (taken : p.handle k worker env o = some m) :
    ∃ batch, p.server.queue.workers[worker]? = some (.running batch) ∧
      Handles k p env o batch worker m := by
  unfold Process.handle at taken
  split at taken
  case h_2 => cases taken
  case h_1 batch busy =>
    refine ⟨batch, busy, ?_⟩
    obtain ⟨state, result⟩ := @invoke_cases k p env o batch (sound.single busy)
    dsimp only at taken
    rw [state] at taken
    split at taken
    case h_1 caught =>
      rw [caught] at result
      cases taken
      exact .crashed result
    case h_2 h caught =>
      rw [caught] at result
      obtain ⟨server, stepped, rfl⟩ := Option.map_eq_some_iff.mp taken
      refine .answered result.2 stepped ?_
      obtain ⟨queue, called, rfl⟩ := Option.map_eq_some_iff.mp stepped
      rw [result.1]
      exact congrArg (p.server.handled ++ ·) (handle_pairs busy called)

/-- Every job of a call has a reply. -/
theorem Process.call_pairs (k : KvServer) (p : Process) (env : Env) (o : Oracle)
    (batch : List (Job Completion)) :
    (p.call k env o batch).pairs.map Prod.fst = (p.call k env o batch).batch := by
  have length := @handleBatch_replies k.codec env (batch.map Job.input) o p.service
  simp only [Call.pairs, Process.call]
  split
  case h_1 replies returned =>
    have length := (length returned).1
    rw [List.length_map] at length
    rw [List.map_fst_zip (by rw [List.length_map]; omega)]
  case h_2 => simp [Function.comp_def]

theorem Process.serve_cases {e : Server.Event} (taken : p.serve k e = some m) :
    ∃ server, p.server.step k.server e = some server ∧ server.handled = p.server.handled ∧
      m = .up { p with server := server } := by
  unfold Process.serve at taken
  split at taken
  case h_1 => cases taken
  case h_2 other =>
    obtain ⟨server, stepped, rfl⟩ := Option.map_eq_some_iff.mp taken
    exact ⟨server, stepped, step_handled stepped other, rfl⟩

theorem Machine.Sound.step {e : Event} (sound : m.Sound k) (taken : m.step k e = some m') :
    m'.Sound k := by
  cases m with
  | down fs =>
    cases e with
    | serve | handle | stop => cases taken
    | start clock o =>
      simp only [Machine.step] at taken
      split at taken
      · cases taken
        exact ⟨⟨[], .nil⟩, rfl, by simp⟩
      · cases taken
        trivial
  | up p =>
    have sound : p.Sound k := sound
    obtain ⟨trace, run⟩ := sound.reached
    cases e with
    | start => cases taken
    | stop =>
      cases taken
      trivial
    | serve e =>
      obtain ⟨server, stepped, same, rfl⟩ := Process.serve_cases taken
      exact ⟨⟨_, run.snoc (fun _ _ => not_false) stepped⟩, same.trans sound.handled,
        sound.batches⟩
    | handle worker env o =>
      obtain ⟨batch, busy, handles⟩ := Process.handle_cases sound taken
      cases handles with
      | crashed => trivial
      | answered result stepped handled =>
        refine ⟨⟨_, run.snoc (fun _ _ => not_false) stepped⟩, ?_, ?_⟩
        · rw [handled, sound.handled, List.flatMap_append, List.flatMap_singleton]
        · intro call mem
          rcases List.mem_append.mp mem with earlier | last
          · exact sound.batches call earlier
          · rw [List.mem_singleton.mp last]
            exact p.call_pairs k env o batch

/-- Every step of the machine is a step of the host or does not touch the service. -/
theorem Machine.Sound.shows {e : Event} (sound : m.Sound k) (taken : m.step k e = some m') :
    Shows (HostStep k.codec k.config) Machine.host (Machine.incident k) m e m' := by
  unfold Shows
  cases m with
  | down fs =>
    cases e with
    | serve | handle | stop => cases taken
    | start clock o =>
      simp only [Machine.step] at taken
      simp only [Machine.incident]
      have refused := @HostStep.refused k.codec k.config fs clock o
      rcases created : create k.codec k.config clock fs [] o with ⟨service | e | _, o', fs'⟩
      all_goals
        rw [created] at taken
        cases taken
      · exact .starts (congrArg Prod.fst created)
      · rw [created] at refused
        exact refused (by simp)
      · rw [created] at refused
        exact refused (by simp)
  | up p =>
    cases e with
    | start => cases taken
    | stop =>
      cases taken
      exact .stops p.service
    | serve e =>
      obtain ⟨server, -, -, rfl⟩ := Process.serve_cases taken
      rfl
    | handle worker env o =>
      obtain ⟨batch, busy, handles⟩ := Process.handle_cases sound taken
      simp only [Machine.incident, busy]
      have step : Step k.codec k.config .faulty p.service (p.call k env o batch).action
        (handleBatch k.codec env (batch.map Job.input) o p.service).2.2 :=
        .batch env (batch.map Job.input) o trivial
      cases handles with
      | crashed result => exact .crashes step result
      | answered result => exact .returns step result (by simp [Call.action])

/-- A run of the machine shows as a run of the host. -/
theorem Machine.Runs.host (run : Machine.Runs k fs trace m) :
    m.Sound k ∧ HostRun k.codec k.config fs (Machine.incidents k trace) m.host :=
  run.shown (Machine.Sound k) trivial (fun sound taken => sound.step taken)
    fun sound taken => sound.shows taken

/-! ## Lifetimes -/

/-- The call as a step of the service. -/
def Call.step (call : Call) : CacheService × Action := (call.service, call.action)

/-- A process from its start on: the service has made the calls of the handler, one after
another, and nothing else has happened to it. -/
structure Lifetime (k : KvServer) (fs : Fs) (trace : List (Machine × Event)) (p : Process) :
    Prop where
  sound : p.Sound k
  began : ∃ clock fs₀ o s₀ past, HostRun k.codec k.config fs past (.down fs₀) ∧
    (create k.codec k.config clock fs₀ [] o).1 = .ok s₀ ∧
    Calls k.codec k.config .faulty s₀ (p.calls.map Call.step) p.service ∧
    Machine.incidents k trace =
      past ++ [(.down fs₀, .start clock)] ++ p.calls.map Call.incident
  survived : ∀ call ∈ p.calls, call.result ≠ .crash

theorem Lifetime.serve {e : Server.Event} (life : Lifetime k fs trace p)
    (taken : p.serve k e = some m) :
    ∃ p', m = .up p' ∧ Lifetime k fs (trace ++ [(.up p, .serve e)]) p' := by
  have sound : m.Sound k :=
    Machine.Sound.step (m := .up p) (e := .serve e) life.sound taken
  obtain ⟨server, -, -, rfl⟩ := Process.serve_cases taken
  refine ⟨_, rfl, sound, ?_, life.survived⟩
  obtain ⟨clock, fs₀, o, s₀, past, before, created, calls, shows⟩ := life.began
  refine ⟨clock, fs₀, o, s₀, past, before, created, calls, ?_⟩
  rw [Machine.incidents_append, shows]
  exact List.append_nil _

theorem Lifetime.handle (life : Lifetime k fs trace p) (taken : p.handle k worker env o = some m) :
    (∃ fs', m = .down fs') ∨
      ∃ p', m = .up p' ∧ Lifetime k fs (trace ++ [(.up p, .handle worker env o)]) p' := by
  have sound : m.Sound k :=
    Machine.Sound.step (m := .up p) (e := .handle worker env o) life.sound taken
  obtain ⟨batch, busy, handles⟩ := Process.handle_cases life.sound taken
  cases handles with
  | crashed => exact .inl ⟨_, rfl⟩
  | answered result stepped handled =>
    refine .inr ⟨_, rfl, sound, ?_, ?_⟩
    · obtain ⟨clock, fs₀, o₀, s₀, past, before, created, calls, shows⟩ := life.began
      refine ⟨clock, fs₀, o₀, s₀, past, before, created, ?_, ?_⟩
      · rw [List.map_append]
        refine calls.snoc ?_ (.batch env (batch.map Job.input) o trivial)
        intro e mem
        obtain ⟨call, earlier, rfl⟩ := List.mem_map.mp mem
        exact life.survived call earlier
      · have last : Machine.incidents k [(.up p, .handle worker env o)] =
            [(p.call k env o batch).incident] := by
          simp [Machine.incidents, shown, Machine.incident, busy, Machine.host, Call.incident,
            Process.call]
        rw [Machine.incidents_append, shows, last, List.map_append, ← List.append_assoc]
        rfl
    · intro call mem
      rcases List.mem_append.mp mem with earlier | last
      · exact life.survived call earlier
      · rw [List.mem_singleton.mp last]
        exact result

theorem Machine.Runs.lifetime (run : Machine.Runs k fs trace m) :
    ∀ p, m = .up p → Lifetime k fs trace p := by
  refine (Run.invariant run (fun trace m => Machine.Runs k fs trace m ∧
    ∀ p, m = .up p → Lifetime k fs trace p) (fun _ _ => True) ⟨.nil, by simp⟩ ?_
    fun _ _ => trivial).2
  rintro trace m e m' ⟨before, lives⟩ - taken
  refine ⟨before.snoc (fun _ _ => not_false) taken, ?_⟩
  rintro p rfl
  cases m with
  | up q =>
    cases e with
    | start | stop => cases taken
    | serve e =>
      obtain ⟨p', same, life⟩ := (lives q rfl).serve taken
      cases same
      exact life
    | handle worker env o =>
      rcases (lives q rfl).handle taken with ⟨fs', same⟩ | ⟨p', same, life⟩
      · cases same
      · cases same
        exact life
  | down fs₀ =>
    cases e with
    | serve | handle | stop => cases taken
    | start clock o =>
      obtain ⟨-, hosted⟩ := before.host
      have sound : Machine.Sound k (.up p) := Machine.Sound.step (m := .down fs₀) trivial taken
      simp only [Machine.step] at taken
      rcases created : create k.codec k.config clock fs₀ [] o with ⟨service | e | _, o', fs'⟩
      all_goals
        rw [created] at taken
        cases taken
      refine ⟨sound, ⟨clock, fs₀, o, service, _, hosted, congrArg Prod.fst created, .nil, ?_⟩,
        by simp⟩
      rw [Machine.incidents_append]
      exact (List.append_nil _).symm

/-! ## A small machine -/

/-- A server on a small cache, with group commit. -/
def smallServer : KvServer where
  codec := wireCodec
  config := small
  server := kvServer true
  sizer_eq := rfl
  workers_eq := rfl
  pipeline_eq := rfl

/-- There is a process, and it has the property. -/
def Machine.Up (P : Process → Prop) : Machine → Prop
  | .up p => P p
  | .down _ => False

instance (P : Process → Prop) [DecidablePred P] : DecidablePred (Machine.Up P)
  | .up p => inferInstanceAs (Decidable (P p))
  | .down _ => inferInstanceAs (Decidable False)

/-- The events can happen, and the process they lead to has the property. -/
def Machine.After (k : KvServer) (m : Machine) (es : List Event) (P : Process → Prop) : Prop :=
  Library.After (Machine.step k) m es (Machine.Up P)

instance (k : KvServer) (m : Machine) (es : List Event) (P : Process → Prop) [DecidablePred P] :
    Decidable (m.After k es P) :=
  inferInstanceAs (Decidable (Library.After (Machine.step k) m es (Machine.Up P)))

theorem Machine.Runs.after {es : List Event} {P : Process → Prop}
    (run : Machine.Runs k fs trace m) (h : m.After k es P) :
    ∃ p later, Machine.Runs k fs (trace ++ later) (.up p) ∧ P p := by
  obtain ⟨m', later, run', has⟩ := Run.after run h
  cases m' with
  | up p => exact ⟨p, later, run', has⟩
  | down fs' => cases has

/-- A connection stores a value and receives the reply. -/
def storeEvents : List Event :=
  [.start frozen.applyClock .reliable, .serve .accept, .serve (.task 0 {}), .serve .accept,
    .serve (.task 1 {}),
    .serve (.ready 0 1 false { receives := [.data (Message.frame .set [1] [2])] }),
    .serve (.take 0), .handle 0 frozen .reliable, .serve (.complete 0),
    .serve (.task 0 { sends := [.wrote 100] })]

/-- Another connection asks for it. -/
def askEvents : List Event :=
  [.serve (.ready 1 1 false { receives := [.data (Message.frame .get [1] [])] }),
    .serve (.take 0)]

end KVRPC.System
