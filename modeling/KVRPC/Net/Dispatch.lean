import KVRPC.Library.Indexed
import KVRPC.Library.Runs
import KVRPC.Net.Reactor

/-!
# Watches and timers of an event loop

`Add`, `Modify`, `Remove`, `At`, `Cancel` and `Run` of `event_loop.cpp` as far as watches and
timers are concerned. User code calls them from outside and from inside the callbacks that `Run`
makes, also `Run` itself; each call of `Run` is a frame of the stack. Callbacks return or throw,
time passes, and the kernel reports what it likes of what is registered with it.

1. `timers_` and `timer_index_` are in bijection, and a timer fires when it is due, before those
   that are due later, once, and not after it was cancelled (`timers_and_watches`).
2. The callback of a watch is not called after the watch was removed, also by an event that was
   reported before.
3. This rests on identifiers that are not used again, which holds for the first 2 ^ 64 of them
   (`identifiers_wrap`).
-/
namespace KVRPC.Net

open Library
open scoped List

/-- A descriptor and its callback. -/
structure Watch (ω : Type) where
  fd : Int
  callback : ω
  deriving DecidableEq

/-- An element of `timers_` and its address, which is what an iterator knows. -/
structure TimerNode (τ : Type) where
  address : Nat
  deadline : Int
  id : UInt64
  task : τ
  deriving DecidableEq

def edgeTriggered : Nat := 2 ^ 31

structure Tables (ω τ : Type) where
  next : UInt64 := 1
  /-- The `epoll` instance: by descriptor, the events asked for and the data that comes back. -/
  interest : List (Int × Nat × UInt64) := []
  watches : List (UInt64 × Watch ω) := []
  timers : List (TimerNode τ) := []
  index : List (UInt64 × Nat) := []
  -- what has happened so far: the identifiers handed out, the timers that have fired, the watches
  -- whose callback was called, and what was passed to `Cancel` and `Remove` once handed out
  issued : List UInt64 := []
  fired : List UInt64 := []
  called : List UInt64 := []
  cancelled : List UInt64 := []
  removed : List UInt64 := []

/-- The loops of `Run`. Entries of the array that `epoll_wait` fills are a token and a mask. -/
inductive Scope (α : Type) where
  | testing
  | scanning (events : List (UInt64 × Nat))
  | running (batch : List α) (events : List (UInt64 × Nat))
  | timers
  deriving DecidableEq

/-- A call of `Run`; `calling` says that it waits for a callback to return. -/
structure Frame (α : Type) where
  scope : Scope α
  calling : Bool := false
  deriving DecidableEq

structure Dispatcher (ω τ α : Type) where
  tables : Tables ω τ := {}
  tasks : List α := []
  stopping : Bool := false
  clock : Int := 0
  frames : List (Frame α) := []

/-- What user code calls. The kernel decides whether `epoll_ctl` succeeds, the allocator where a
node is. -/
inductive Call (ω τ : Type) where
  | add (fd : Int) (events : Nat) (callback : ω) (ok : Bool)
  | modify (token : UInt64) (events : Nat) (ok : Bool)
  | remove (token : UInt64)
  | timerAt (deadline : Int) (task : τ) (address : Nat)
  | cancel (id : UInt64)
  | run

inductive DispatchEvent (ω τ α : Type) where
  | call (c : Call ω τ)
  | finish
  | throw
  | exit
  /-- `epoll_wait` returns these entries after `n` nanoseconds. -/
  | wait (events : List (UInt64 × Nat)) (n : Nat)
  | interrupted
  | fail
  | scan
  | start
  | timer
  | post (task : α)
  | stop
  | tick (n : Nat)
  /-- A descriptor is closed, and `epoll` forgets it. -/
  | forget (fd : Int)

namespace Tables

variable {ω τ : Type}

/-- `next_++`. -/
def issue (t : Tables ω τ) : Tables ω τ :=
  { t with next := t.next + 1, issued := t.issued ++ [t.next] }

/-- The descriptor is registered with `epoll`. -/
def Registered (t : Tables ω τ) (fd : Int) : Prop := fd ∈ t.interest.map Prod.fst

instance (t : Tables ω τ) (fd : Int) : Decidable (t.Registered fd) :=
  inferInstanceAs (Decidable (_ ∈ _))

/-- `watches_.emplace`, which does not replace an element. -/
def emplaced (t : Tables ω τ) (watch : Watch ω) : List (UInt64 × Watch ω) :=
  if (t.watches.lookup t.next).isSome then t.watches else t.watches ++ [(t.next, watch)]

/-- `Add`. The identifier is used up also if `epoll_ctl` fails, as it does for a descriptor that
is registered. -/
def add (t : Tables ω τ) (fd : Int) (events : Nat) (callback : ω) (ok : Bool) :
    Option (Tables ω τ) :=
  if ok then
    if t.Registered fd then none
    else some { t.issue with
      interest := t.interest ++ [(fd, events ||| edgeTriggered, t.next)]
      watches := t.emplaced ⟨fd, callback⟩ }
  else some t.issue

def modify (t : Tables ω τ) (token : UInt64) (events : Nat) (ok : Bool) : Option (Tables ω τ) :=
  match t.watches.lookup token with
  | none => some t
  | some watch =>
    if ok then
      if t.Registered watch.fd then
        some { t with
          interest := t.interest.map fun entry =>
            if entry.1 = watch.fd then (entry.1, events ||| edgeTriggered, token) else entry }
      else none
    else some t

/-- `history` with an identifier that had been handed out. -/
def noted (t : Tables ω τ) (history : List UInt64) (id : UInt64) : List UInt64 :=
  if id ∈ t.issued then history ++ [id] else history

def remove (t : Tables ω τ) (token : UInt64) : Tables ω τ :=
  match t.watches.lookup token with
  | none => { t with removed := t.noted t.removed token }
  | some watch => { t with
      interest := t.interest.filter fun entry => entry.1 ≠ watch.fd
      watches := t.watches.filter fun entry => entry.1 ≠ token
      removed := t.noted t.removed token }

/-- `At`. The node is at an address that no other node has. -/
def timerAt (t : Tables ω τ) (deadline : Int) (task : τ) (address : Nat) : Option (Tables ω τ) :=
  if address ∈ t.timers.map TimerNode.address then none
  else some { t.issue with
    timers := emplace TimerNode.deadline ⟨address, deadline, t.next, task⟩ t.timers
    index := t.index.filter (fun entry => entry.1 ≠ t.next) ++ [(t.next, address)] }

def cancel (t : Tables ω τ) (id : UInt64) : Tables ω τ :=
  match t.index.lookup id with
  | none => { t with cancelled := t.noted t.cancelled id }
  | some address => { t with
      timers := t.timers.filter fun node => node.address ≠ address
      index := t.index.filter fun entry => entry.1 ≠ id
      cancelled := t.noted t.cancelled id }

/-- The first timer is taken out of both tables, before its task is called. -/
def fire (t : Tables ω τ) (node : TimerNode τ) (rest : List (TimerNode τ)) : Tables ω τ :=
  { t with
    index := t.index.filter fun entry => entry.1 ≠ node.id
    timers := rest
    fired := t.fired ++ [node.id] }

end Tables

namespace Dispatcher

variable {ω τ α : Type}

/-- User code has control: outside of `Run`, or in a callback. -/
def userTurn (s : Dispatcher ω τ α) : Bool :=
  match s.frames with
  | [] => true
  | frame :: _ => frame.calling

def setTables (s : Dispatcher ω τ α) (t : Tables ω τ) : Dispatcher ω τ α := { s with tables := t }

def call (s : Dispatcher ω τ α) : Call ω τ → Option (Dispatcher ω τ α)
  | .add fd events callback ok => (s.tables.add fd events callback ok).map s.setTables
  | .modify token events ok => (s.tables.modify token events ok).map s.setTables
  | .remove token => some (s.setTables (s.tables.remove token))
  | .timerAt deadline task address => (s.tables.timerAt deadline task address).map s.setTables
  | .cancel id => some (s.setTables (s.tables.cancel id))
  | .run => some { s with frames := ⟨.testing, false⟩ :: s.frames }

def intMax : Int := 2 ^ 31 - 1

/-- How many milliseconds `epoll_wait` may take, for ever if negative. The clock counts
nanoseconds, and the conversion truncates. -/
def timeout (s : Dispatcher ω τ α) : Int :=
  match s.tables.timers with
  | [] => -1
  | node :: _ => max 0 (min ((node.deadline - s.clock).tdiv 1000000 + 1) intMax)

/-- `epoll_wait` returns what is registered, and nothing only when the time is over. -/
def MayReport (s : Dispatcher ω τ α) (events : List (UInt64 × Nat)) (n : Nat) : Prop :=
  (∀ e ∈ events, e.1 = 0 ∨ e.1 ∈ s.tables.interest.map fun entry => entry.2.2) ∧
    (events = [] → 0 ≤ s.timeout ∧ s.timeout * 1000000 ≤ n)

instance (s : Dispatcher ω τ α) (events : List (UInt64 × Nat)) (n : Nat) :
    Decidable (s.MayReport events n) := by
  unfold MayReport; infer_instance

/-- The next entry of the array. Token zero is the eventfd. -/
def scan (s : Dispatcher ω τ α) (rest : List (Frame α)) :
    List (UInt64 × Nat) → Dispatcher ω τ α
  | [] => { s with frames := ⟨.timers, false⟩ :: rest }
  | (token, _) :: events =>
    if token = 0 then
      { s with tasks := [], frames := ⟨.running s.tasks events, false⟩ :: rest }
    else
      match s.tables.watches.lookup token with
      | none => { s with frames := ⟨.scanning events, false⟩ :: rest }
      | some _ => { s with
          tables.called := s.tables.called ++ [token]
          frames := ⟨.scanning events, true⟩ :: rest }

/-- The loop over the timers. -/
def timer (s : Dispatcher ω τ α) (rest : List (Frame α)) : Dispatcher ω τ α :=
  match s.tables.timers with
  | [] => { s with frames := ⟨.testing, false⟩ :: rest }
  | node :: later =>
    if node.deadline ≤ s.clock then
      { s with tables := s.tables.fire node later, frames := ⟨.timers, true⟩ :: rest }
    else { s with frames := ⟨.testing, false⟩ :: rest }

def step (s : Dispatcher ω τ α) : DispatchEvent ω τ α → Option (Dispatcher ω τ α)
  | .call c => if s.userTurn then s.call c else none
  | .finish =>
    match s.frames with
    | ⟨scope, true⟩ :: rest => some { s with frames := ⟨scope, false⟩ :: rest }
    | _ => none
  -- the exception leaves `Run`, for the code that has called it
  | .throw =>
    match s.frames with
    | ⟨_, true⟩ :: rest => some { s with frames := rest }
    | _ => none
  | .exit =>
    match s.frames with
    | ⟨.testing, false⟩ :: rest => if s.stopping then some { s with frames := rest } else none
    | _ => none
  | .wait events n =>
    match s.frames with
    | ⟨.testing, false⟩ :: rest =>
      if s.stopping = false ∧ s.MayReport events n then
        some { s with clock := s.clock + n, frames := ⟨.scanning events, false⟩ :: rest }
      else none
    | _ => none
  | .interrupted =>
    match s.frames with
    | ⟨.testing, false⟩ :: _ => if s.stopping then none else some s
    | _ => none
  | .fail =>
    match s.frames with
    | ⟨.testing, false⟩ :: rest => if s.stopping then none else some { s with frames := rest }
    | _ => none
  | .scan =>
    match s.frames with
    | ⟨.scanning events, false⟩ :: rest => some (s.scan rest events)
    | _ => none
  | .start =>
    match s.frames with
    | ⟨.running [] events, false⟩ :: rest =>
      some { s with frames := ⟨.scanning events, false⟩ :: rest }
    | ⟨.running (_ :: batch) events, false⟩ :: rest =>
      some { s with frames := ⟨.running batch events, true⟩ :: rest }
    | _ => none
  | .timer =>
    match s.frames with
    | ⟨.timers, false⟩ :: rest => some (s.timer rest)
    | _ => none
  | .post task => some { s with tasks := s.tasks ++ [task] }
  | .stop => some { s with stopping := true }
  | .tick n => some { s with clock := s.clock + n }
  | .forget fd => some { s with
      tables.interest := s.tables.interest.filter fun entry => entry.1 ≠ fd }

abbrev Runs (trace : List (Dispatcher ω τ α × DispatchEvent ω τ α)) (s : Dispatcher ω τ α) :
    Prop :=
  Run (fun s e s' => step s e = some s') (fun _ => False) {} trace s

end Dispatcher

namespace Tables

variable {ω τ : Type} {t t' : Tables ω τ} {now : Int}

/-! ## What can happen to the tables -/

inductive Change (now : Int) (t : Tables ω τ) : Tables ω τ → Prop
  | same (interest : List (Int × Nat × UInt64)) : Change now t { t with interest := interest }
  | issued : Change now t t.issue
  | added (watch : Watch ω) (interest : List (Int × Nat × UInt64)) :
      Change now t { t.issue with interest := interest, watches := t.emplaced watch }
  | removed (token : UInt64) : Change now t (t.remove token)
  | armed (deadline : Int) (task : τ) {address : Nat}
      (free : address ∉ t.timers.map TimerNode.address) : Change now t { t.issue with
      timers := emplace TimerNode.deadline ⟨address, deadline, t.next, task⟩ t.timers
      index := t.index.filter (fun entry => entry.1 ≠ t.next) ++ [(t.next, address)] }
  | cancelled (id : UInt64) : Change now t (t.cancel id)
  | fired {node : TimerNode τ} {rest : List (TimerNode τ)} (front : t.timers = node :: rest)
      (due : node.deadline ≤ now) : Change now t (t.fire node rest)
  | called {token : UInt64} {watch : Watch ω} (found : t.watches.lookup token = some watch) :
      Change now t { t with called := t.called ++ [token] }

/-- `Remove` and `Cancel` do not hand out identifiers and call nothing. -/
theorem remove_keeps (t : Tables ω τ) (token : UInt64) :
    (t.remove token).next = t.next ∧ (t.remove token).issued = t.issued ∧
      (t.remove token).fired = t.fired ∧ (t.remove token).called = t.called := by
  unfold remove
  split <;> exact ⟨rfl, rfl, rfl, rfl⟩

theorem cancel_keeps (t : Tables ω τ) (id : UInt64) :
    (t.cancel id).next = t.next ∧ (t.cancel id).issued = t.issued ∧
      (t.cancel id).fired = t.fired ∧ (t.cancel id).called = t.called := by
  unfold cancel
  split <;> exact ⟨rfl, rfl, rfl, rfl⟩

/-! ## Identifiers -/

/-- The identifiers handed out are one, two and so on, modulo 2 ^ 64. -/
structure Counted (t : Tables ω τ) : Prop where
  next : t.next = UInt64.ofNat (t.issued.length + 1)
  issued : t.issued = (List.range t.issued.length).map fun i => UInt64.ofNat (i + 1)

namespace Counted

theorem issue (h : t.Counted) : t.issue.Counted where
  next := by
    simp only [Tables.issue, List.length_append, List.length_singleton, h.next]
    exact (UInt64.ofNat_add (t.issued.length + 1) 1).symm
  issued := by
    have same : t.issue.issued = t.issued ++ [t.next] := rfl
    rw [same, List.length_append, List.length_singleton, List.range_succ, List.map_append,
      ← h.issued, h.next]
    rfl

theorem congr (h : t.Counted) (next : t'.next = t.next) (issued : t'.issued = t.issued) :
    t'.Counted :=
  ⟨by rw [next, issued]; exact h.next, by rw [issued]; exact h.issued⟩

theorem change (h : t.Counted) (change : Change now t t') : t'.Counted := by
  cases change with
  | issued => exact h.issue
  | added _ _ => exact h.issue.congr rfl rfl
  | armed _ _ _ => exact h.issue.congr rfl rfl
  | removed token => exact h.congr (t.remove_keeps token).1 (t.remove_keeps token).2.1
  | cancelled id => exact h.congr (t.cancel_keeps id).1 (t.cancel_keeps id).2.1
  | _ => exact h.congr rfl rfl

/-- Numbers up to 2 ^ 64 that become the same identifier are the same. -/
theorem ofNat_inj {i j : Nat} (low : i < 2 ^ 64) (low' : j < 2 ^ 64)
    (same : UInt64.ofNat (i + 1) = UInt64.ofNat (j + 1)) : i = j := by
  have mods := congrArg UInt64.toNat same
  rw [UInt64.toNat_ofNat', UInt64.toNat_ofNat'] at mods
  omega

theorem nodup (h : t.Counted) (few : t.issued.length ≤ 2 ^ 64) : t.issued.Nodup := by
  rw [h.issued]
  refine List.Nodup.map_on (fun i mem j mem' same => ?_) List.nodup_range
  rw [List.mem_range] at mem mem'
  exact ofNat_inj (by omega) (by omega) same

theorem fresh (h : t.Counted) (few : t.issued.length < 2 ^ 64) : t.next ∉ t.issued := by
  rw [h.next, h.issued, List.mem_map]
  rintro ⟨i, mem, same⟩
  rw [List.mem_range, List.length_map, List.length_range] at *
  have := ofNat_inj (by omega) (by omega) same
  omega

end Counted

/-! ## The tables fit together -/

/-- The identifiers have been handed out and are not those of timers that are still to fire. -/
def Spent (t : Tables ω τ) (ids : List UInt64) : Prop :=
  ∀ id ∈ ids, id ∈ t.issued ∧ id ∉ t.timers.map TimerNode.id

structure Good (t : Tables ω τ) : Prop where
  indexed : Indexed TimerNode.id TimerNode.address t.timers t.index
  sorted : Ascending TimerNode.deadline t.timers
  armed : ∀ node ∈ t.timers, node.id ∈ t.issued
  watched : ∀ entry ∈ t.watches, entry.1 ∈ t.issued
  fired : t.Spent t.fired
  once : t.fired.Nodup
  cancelled : t.Spent t.cancelled
  removed : ∀ token ∈ t.removed, token ∈ t.issued ∧ ∀ entry ∈ t.watches, entry.1 ≠ token

theorem Spent.mono {ids : List UInt64} (h : t.Spent ids) (issued : t.issued ⊆ t'.issued)
    (fewer : ∀ node ∈ t'.timers, node ∈ t.timers ∨ node.id ∉ t.issued) : t'.Spent ids := by
  intro id mem
  obtain ⟨known, gone⟩ := h id mem
  refine ⟨issued known, fun here => ?_⟩
  obtain ⟨node, mem', rfl⟩ := List.mem_map.mp here
  obtain old | new := fewer node mem'
  · exact gone (List.mem_map_of_mem old)
  · exact new known

theorem mem_noted {history : List UInt64} {id id' : UInt64} (mem : id ∈ t.noted history id') :
    id ∈ history ∨ (id = id' ∧ id ∈ t.issued) := by
  unfold noted at mem
  split_ifs at mem with known
  · obtain old | new := List.mem_append.mp mem
    · exact .inl old
    · rw [List.mem_singleton.mp new]
      exact .inr ⟨rfl, known⟩
  · exact .inl mem

namespace Good

theorem initial : Good ({} : Tables ω τ) where
  indexed := .nil
  sorted := List.Pairwise.nil
  armed := by simp
  watched := by simp
  fired := by simp [Spent]
  once := List.nodup_nil
  cancelled := by simp [Spent]
  removed := by simp

theorem issue (h : t.Good) (fresh : t.next ∉ t.issued) {watches : List (UInt64 × Watch ω)}
    (more : ∀ entry ∈ watches, entry ∈ t.watches ∨ entry.1 = t.next)
    (interest : List (Int × Nat × UInt64)) :
    Good { t.issue with interest := interest, watches := watches } := by
  have grows : t.issued ⊆ t.issued ++ [t.next] := List.subset_append_left _ _
  refine ⟨h.indexed, h.sorted, fun node mem => grows (h.armed node mem), ?_,
    h.fired.mono grows fun _ mem => .inl mem, h.once, h.cancelled.mono grows fun _ mem => .inl mem,
    ?_⟩
  · intro entry mem
    obtain old | new := more entry mem
    · exact grows (h.watched entry old)
    · exact List.mem_append_right _ (List.mem_singleton.mpr new)
  · intro token mem
    obtain ⟨known, gone⟩ := h.removed token mem
    refine ⟨grows known, fun entry mem' same => ?_⟩
    obtain old | new := more entry mem'
    · exact gone entry old same
    · exact fresh (new ▸ same ▸ known)

theorem arm (h : t.Good) (fresh : t.next ∉ t.issued) (deadline : Int) (task : τ) {address : Nat}
    (free : address ∉ t.timers.map TimerNode.address) : Good { t.issue with
      timers := emplace TimerNode.deadline ⟨address, deadline, t.next, task⟩ t.timers
      index := t.index.filter (fun entry => entry.1 ≠ t.next) ++ [(t.next, address)] } := by
  have grows : t.issued ⊆ t.issued ++ [t.next] := List.subset_append_left _ _
  have unused : t.next ∉ t.timers.map TimerNode.id := by
    intro mem
    obtain ⟨node, mem', same⟩ := List.mem_map.mp mem
    exact fresh (same ▸ h.armed node mem')
  have nodes := emplace_perm TimerNode.deadline ⟨address, deadline, t.next, task⟩ t.timers
  have new : ∀ node ∈ emplace TimerNode.deadline ⟨address, deadline, t.next, task⟩ t.timers,
      node ∈ t.timers ∨ node.id ∉ t.issued := by
    intro node mem
    obtain rfl | old := List.mem_cons.mp (nodes.subset mem)
    · exact .inr fresh
    · exact .inl old
  refine ⟨h.indexed.insert unused free nodes, h.sorted.emplace, ?_, fun entry mem =>
    grows (h.watched entry mem), h.fired.mono grows new, h.once, h.cancelled.mono grows new,
    fun token mem => ⟨grows (h.removed token mem).1, (h.removed token mem).2⟩⟩
  intro node mem
  obtain rfl | old := List.mem_cons.mp (nodes.subset mem)
  · exact List.mem_append_right _ (List.mem_singleton.mpr rfl)
  · exact grows (h.armed node old)

theorem cancel (h : t.Good) (id : UInt64) : (t.cancel id).Good := by
  unfold Tables.cancel
  split
  case h_1 missed =>
    refine ⟨h.indexed, h.sorted, h.armed, h.watched, h.fired, h.once, ?_, h.removed⟩
    intro id' mem
    obtain old | ⟨rfl, known⟩ := mem_noted mem
    · exact h.cancelled id' old
    · exact ⟨known, h.indexed.notMem_of_lookup missed⟩
  case h_2 address found =>
    rw [h.indexed.filter_address found]
    have fewer : ∀ node ∈ t.timers.filter (fun node => node.id ≠ id),
        node ∈ t.timers ∨ node.id ∉ t.issued := fun _ mem => .inl (List.mem_of_mem_filter mem)
    have kept : Spent { t with timers := t.timers.filter fun node => node.id ≠ id } t.cancelled :=
      h.cancelled.mono (List.Subset.refl _) fewer
    refine ⟨h.indexed.remove id, h.sorted.filter _, fun node mem =>
      h.armed node (List.mem_of_mem_filter mem), h.watched,
      h.fired.mono (List.Subset.refl _) fewer, h.once, ?_, h.removed⟩
    intro id' mem
    obtain old | ⟨rfl, known⟩ := mem_noted mem
    · exact kept id' old
    · exact ⟨known, by simp⟩

theorem remove (h : t.Good) (token : UInt64) : (t.remove token).Good := by
  unfold Tables.remove
  split
  case h_1 missed =>
    refine ⟨h.indexed, h.sorted, h.armed, h.watched, h.fired, h.once, h.cancelled, ?_⟩
    intro token' mem
    obtain old | ⟨rfl, known⟩ := mem_noted mem
    · exact h.removed token' old
    · exact ⟨known, Assoc.lookup_eq_none.mp missed⟩
  case h_2 =>
    refine ⟨h.indexed, h.sorted, h.armed, fun entry mem =>
      h.watched entry (List.mem_of_mem_filter mem), h.fired, h.once, h.cancelled, ?_⟩
    intro token' mem
    obtain old | ⟨rfl, known⟩ := mem_noted mem
    · obtain ⟨known, gone⟩ := h.removed token' old
      exact ⟨known, fun entry mem' => gone entry (List.mem_of_mem_filter mem')⟩
    · exact ⟨known, fun entry mem' => by simpa using (List.mem_filter.mp mem').2⟩

theorem fire (h : t.Good) {node : TimerNode τ} {rest : List (TimerNode τ)}
    (front : t.timers = node :: rest) : (t.fire node rest).Good := by
  have indexed := h.indexed
  have sorted := h.sorted
  rw [front] at indexed sorted
  have fewer : ∀ n ∈ rest, n ∈ t.timers ∨ n.id ∉ t.issued := by
    intro n mem
    rw [front]
    exact .inl (List.mem_cons_of_mem _ mem)
  have here : node ∈ t.timers := front ▸ List.mem_cons_self
  have kept : Spent { t with timers := rest } t.fired :=
    h.fired.mono (List.Subset.refl _) fewer
  refine ⟨indexed.tail, (List.pairwise_cons.mp sorted).2, ?_, h.watched, ?_, ?_,
    h.cancelled.mono (List.Subset.refl _) fewer, h.removed⟩
  · intro n mem
    exact h.armed n (front ▸ List.mem_cons_of_mem _ mem)
  · intro id mem
    obtain old | new := List.mem_append.mp mem
    · exact kept id old
    · rw [List.mem_singleton.mp new]
      exact ⟨h.armed node here, (List.nodup_cons.mp indexed.ids).1⟩
  · have unfired : node.id ∉ t.fired := fun mem =>
      (h.fired node.id mem).2 (List.mem_map_of_mem here)
    exact List.nodup_append'.mpr ⟨h.once, List.nodup_singleton _, by simpa using unfired⟩

theorem change (h : t.Good) (counted : t.Counted) (change : Change now t t')
    (few : t'.issued.length ≤ 2 ^ 64) : t'.Good := by
  have fresh : t.issue.issued.length ≤ 2 ^ 64 → t.next ∉ t.issued := by
    intro few
    refine counted.fresh ?_
    simp only [Tables.issue, List.length_append, List.length_singleton] at few
    omega
  cases change with
  | same _ => exact ⟨h.1, h.2, h.3, h.4, h.5, h.6, h.7, h.8⟩
  | issued => exact h.issue (fresh few) (fun _ mem => .inl mem) t.interest
  | added watch interest =>
    refine h.issue (fresh few) (fun entry mem => ?_) interest
    unfold emplaced at mem
    split_ifs at mem
    · exact .inl mem
    · obtain old | new := List.mem_append.mp mem
      · exact .inl old
      · exact .inr (congrArg Prod.fst (List.mem_singleton.mp new))
  | removed token => exact h.remove token
  | armed deadline task free => exact h.arm (fresh few) deadline task free
  | cancelled id => exact h.cancel id
  | fired front _ => exact h.fire front
  | called _ => exact ⟨h.1, h.2, h.3, h.4, h.5, h.6, h.7, h.8⟩

end Good

/-- What fires is due, first and not cancelled. -/
theorem Good.fires (h : t.Good) (change : Change now t t') (fires : t'.fired ≠ t.fired) :
    ∃ node, t.timers = node :: t'.timers ∧ t'.fired = t.fired ++ [node.id] ∧
      node.deadline ≤ now ∧ (∀ other ∈ t.timers, node.deadline ≤ other.deadline) ∧
      node.id ∉ t.cancelled := by
  cases change with
  | @fired node rest front due =>
    refine ⟨node, front, rfl, due, fun other mem => ?_, fun mem => ?_⟩
    · have sorted := h.sorted
      rw [front] at sorted mem
      obtain rfl | later := List.mem_cons.mp mem
      · exact le_rfl
      · exact (List.pairwise_cons.mp sorted).1 other later
    · refine (h.cancelled node.id mem).2 ?_
      rw [front]
      exact List.mem_cons_self
  | removed token => exact absurd (t.remove_keeps token).2.2.1 fires
  | cancelled id => exact absurd (t.cancel_keeps id).2.2.1 fires
  | _ => exact absurd rfl fires

/-- A callback that is called belongs to a watch that has not been removed. -/
theorem Good.calls (h : t.Good) (change : Change now t t') (calls : t'.called ≠ t.called) :
    ∃ token watch, t'.called = t.called ++ [token] ∧ t.watches.lookup token = some watch ∧
      token ∉ t.removed := by
  cases change with
  | @called token watch found =>
    exact ⟨token, watch, rfl, found, fun mem =>
      (h.removed token mem).2 _ (Assoc.mem_of_lookup found) rfl⟩
  | removed token => exact absurd (t.remove_keeps token).2.2.2 calls
  | cancelled id => exact absurd (t.cancel_keeps id).2.2.2 calls
  | _ => exact absurd rfl calls

/-- Identifiers are handed out one at a time and not taken back. -/
theorem issued_prefix (change : Change now t t') : t.issued <+: t'.issued := by
  cases change with
  | removed token => rw [(t.remove_keeps token).2.1]
  | cancelled id => rw [(t.cancel_keeps id).2.1]
  | issued => exact List.prefix_append _ _
  | added _ _ => exact List.prefix_append _ _
  | armed _ _ _ => exact List.prefix_append _ _
  | _ => exact List.prefix_rfl

end Tables

namespace Dispatcher

variable {ω τ α : Type} {s s' : Dispatcher ω τ α}

theorem call_change {c : Call ω τ} (h : s.call c = some s') :
    s.tables.Change s.clock s'.tables := by
  cases c with
  | add fd events callback ok =>
    obtain ⟨t, added, rfl⟩ := Option.map_eq_some_iff.mp h
    unfold Tables.add at added
    split_ifs at added
    · cases added
      exact .added _ _
    · cases added
      exact .issued
  | modify token events ok =>
    obtain ⟨t, modified, rfl⟩ := Option.map_eq_some_iff.mp h
    unfold Tables.modify at modified
    split at modified
    · cases modified
      exact .same _
    · split_ifs at modified
      all_goals cases modified; exact .same _
  | remove token =>
    cases h
    exact .removed token
  | timerAt deadline task address =>
    obtain ⟨t, armed, rfl⟩ := Option.map_eq_some_iff.mp h
    obtain ⟨free, ⟨⟩⟩ := Option.ite_none_left_eq_some.mp armed
    exact .armed deadline task free
  | cancel id =>
    cases h
    exact .cancelled id
  | run =>
    cases h
    exact .same _

theorem step_change {e : DispatchEvent ω τ α} (h : step s e = some s') :
    s.tables.Change s.clock s'.tables := by
  cases e with
  | call c => exact call_change (Option.ite_none_right_eq_some.mp h).2
  | scan =>
    simp only [step] at h
    split at h
    case h_2 => cases h
    case h_1 events rest _ =>
      cases h
      unfold scan
      split
      · exact .same _
      · split
        · exact .same _
        · split
          · exact .same _
          case h_2 found => exact .called found
  | timer =>
    simp only [step] at h
    split at h
    case h_2 => cases h
    case h_1 =>
      cases h
      unfold timer
      split
      · exact .same _
      case h_2 node later front =>
        split
        case isTrue due => exact .fired front due
        case isFalse => exact .same _
  | _ =>
    simp only [step] at h
    repeat' split at h
    all_goals first
      | cases h; exact .same _
      | cases h

theorem Runs.good {trace : List (Dispatcher ω τ α × DispatchEvent ω τ α)} (run : Runs trace s) :
    s.tables.Counted ∧ (s.tables.issued.length ≤ 2 ^ 64 → s.tables.Good) := by
  refine Run.invariant run (fun _ s => s.tables.Counted ∧
    (s.tables.issued.length ≤ 2 ^ 64 → s.tables.Good)) (fun _ _ => True)
    ⟨⟨rfl, rfl⟩, fun _ => .initial⟩ ?_ fun _ _ => trivial
  rintro trace s e s' ⟨counted, good⟩ - taken
  have change := step_change taken
  refine ⟨counted.change change, fun few => ?_⟩
  have fewer := (Tables.issued_prefix change).length_le
  exact (good (by omega)).change counted change few

/-- **Timers and watches**, in every state of every run in which at most 2 ^ 64 identifiers have
been handed out. The two tables of the timers are in bijection; no identifier was handed out twice;
no timer has fired twice. A step that fires a timer fires one that is due, none of the others is
due earlier, and it has not been cancelled. A step that calls the callback of a watch finds the
watch, which has not been removed. -/
theorem timers_and_watches {trace : List (Dispatcher ω τ α × DispatchEvent ω τ α)}
    (run : Runs trace s) (few : s.tables.issued.length ≤ 2 ^ 64) :
    Indexed TimerNode.id TimerNode.address s.tables.timers s.tables.index ∧
    s.tables.issued.Nodup ∧ s.tables.fired.Nodup ∧
    ∀ {e s'}, step s e = some s' →
      (s'.tables.fired ≠ s.tables.fired → ∃ node, s.tables.timers = node :: s'.tables.timers ∧
        s'.tables.fired = s.tables.fired ++ [node.id] ∧ node.deadline ≤ s.clock ∧
        (∀ other ∈ s.tables.timers, node.deadline ≤ other.deadline) ∧
        node.id ∉ s.tables.cancelled) ∧
      (s'.tables.called ≠ s.tables.called → ∃ token watch,
        s'.tables.called = s.tables.called ++ [token] ∧
        s.tables.watches.lookup token = some watch ∧ token ∉ s.tables.removed) := by
  obtain ⟨counted, good⟩ := run.good
  have good := good few
  exact ⟨good.indexed, counted.nodup few, good.once, fun taken =>
    ⟨good.fires (step_change taken), good.calls (step_change taken)⟩⟩

/-- A descriptor is removed and registered again by the callback before its event, and a timer that
is due first is cancelled: neither is called, and the other timer fires. -/
theorem timers_and_watches_stale :
    ∃ (trace : _) (s s' : Dispatcher Unit Unit Unit) (node : TimerNode Unit), Runs trace s ∧
      s.tables.called = [1] ∧ s.tables.removed = [2] ∧ s.tables.issued = [1, 2, 3, 4, 5] ∧
      s.tables.cancelled = [3] ∧ step s .timer = some s' ∧
      s.tables.timers = node :: s'.tables.timers ∧ s'.tables.fired = [4] ∧
      node.deadline ≤ s.clock ∧ node.id ∉ s.tables.cancelled := by
  obtain ⟨trace, s, run, few, fires, called, removed, issued, cancelled, before⟩ :
      ∃ (trace : _) (s : Dispatcher Unit Unit Unit), Runs trace s ∧
        s.tables.issued.length ≤ 2 ^ 64 ∧
        ((step s .timer).any fun s' => s'.tables.fired == [4]) = true ∧ s.tables.called = [1] ∧
        s.tables.removed = [2] ∧ s.tables.issued = [1, 2, 3, 4, 5] ∧ s.tables.cancelled = [3] ∧
        s.tables.fired = [] :=
    ⟨_, _, Run.replays step {}
      [.call (.add 5 1 () true), .call (.add 6 1 () true), .call (.timerAt 7 () 0),
        .call (.timerAt 9 () 1), .call .run, .wait [(1, 1), (2, 1)] 3, .scan,
        .call (.remove 2), .call (.add 6 1 () true), .call (.cancel 3), .finish, .scan, .scan,
        .tick 8] (by decide +kernel), by decide +kernel, by decide +kernel, by decide +kernel,
      by decide +kernel, by decide +kernel, by decide +kernel, by decide +kernel⟩
  obtain ⟨s', taken, fired⟩ := (Option.any_eq_true _ _).mp fires
  rw [beq_iff_eq] at fired
  obtain ⟨-, -, -, steps⟩ := timers_and_watches run few
  obtain ⟨node, front, -, due, -, uncancelled⟩ :=
    (steps taken).1 (by simp [fired, before])
  exact ⟨trace, s, s', node, run, called, removed, issued, cancelled, taken, front, fired, due,
    uncancelled⟩

/-- Timers can be armed and cancelled any number of times. -/
theorem exists_rearmed (n : Nat) : ∃ (trace : _) (s : Dispatcher Unit Unit Unit), Runs trace s ∧
    s.frames = [] ∧ s.tables.timers = [] ∧ s.tables.index = [] ∧ s.tables.issued.length = n := by
  induction n with
  | zero => exact ⟨[], {}, .nil, rfl, rfl, rfl, rfl⟩
  | succ n ih =>
    obtain ⟨trace, s, run, outside, none_armed, unindexed, count⟩ := ih
    have armed : step s (.call (.timerAt 0 () 0)) = some (s.setTables { s.tables.issue with
        timers := [⟨0, 0, s.tables.next, ()⟩], index := [(s.tables.next, 0)] }) := by
      simp [step, userTurn, outside, call, Tables.timerAt, none_armed, unindexed, emplace]
    have cancelled : ∃ s', step (s.setTables { s.tables.issue with
          timers := [⟨0, 0, s.tables.next, ()⟩], index := [(s.tables.next, 0)] })
          (.call (.cancel s.tables.next)) = some s' ∧ s'.frames = [] ∧ s'.tables.timers = [] ∧
        s'.tables.index = [] ∧ s'.tables.issued.length = n + 1 := by
      simp [step, userTurn, outside, call, setTables, Tables.cancel, Tables.issue, count]
    obtain ⟨s', again, outside', none_armed', unindexed', count'⟩ := cancelled
    exact ⟨_, s', (run.snoc (fun _ _ => not_false) armed).snoc (fun _ _ => not_false) again,
      outside', none_armed', unindexed', count'⟩

/-- After 2 ^ 64 identifiers the counter starts again. -/
theorem identifiers_wrap :
    ∃ (trace : _) (s : Dispatcher Unit Unit Unit), Runs trace s ∧ ¬ s.tables.issued.Nodup := by
  obtain ⟨trace, s, run, -, -, -, count⟩ := exists_rearmed (2 ^ 64 + 1)
  refine ⟨trace, s, run, fun nodup => ?_⟩
  have numbers : (s.tables.issued.map UInt64.toNat).Nodup :=
    nodup.map fun _ _ => UInt64.toNat_inj.mp
  have below : (s.tables.issued.map UInt64.toNat).toFinset ⊆ Finset.range (2 ^ 64) := by
    intro n mem
    obtain ⟨id, -, rfl⟩ := List.mem_map.mp (List.mem_toFinset.mp mem)
    exact Finset.mem_range.mpr id.toNat_lt
  have few := Finset.card_le_card below
  rw [List.toFinset_card_of_nodup numbers, List.length_map, count, Finset.card_range] at few
  omega

end Dispatcher

/-! ## What its users see -/

/-- What is done to a reactor. A failing `Add` uses up an identifier. -/
inductive Reactor.Use {ω τ α : Type} (r : Reactor ω τ α) : Reactor ω τ α → Prop
  | nothing : Use r r
  | skip : Use r { r with next := r.next + 1 }
  | add (watch : ω) : Use r (r.add watch).2
  | remove (token : Nat) : Use r (r.remove token)
  | timerAt (timer : τ) : Use r (r.timerAt timer).2
  | cancel (timer : Nat) : Use r (r.cancel timer)
  | fire {timer : Nat} {task : τ} (live : r.timers.lookup timer = some task) :
      Use r (r.cancel timer)

namespace Tables

variable {ω τ α : Type} {t t' : Tables ω τ} {now : Int} {r : Reactor (Watch ω) τ α}

/-- The tables without deadlines, addresses and the width of the counter. -/
structure Shown (t : Tables ω τ) (r : Reactor (Watch ω) τ α) : Prop where
  next : r.next = t.next.toNat
  watches : r.watches = t.watches.map fun entry => (entry.1.toNat, entry.2)
  timers : r.timers ~ t.timers.map fun node => (node.id.toNat, node.task)

namespace Shown

theorem next_issue (h : t.Shown r) (counted : t.Counted)
    (few : t.issue.issued.length + 1 < 2 ^ 64) : r.next + 1 = (t.next + 1).toNat := by
  have shorter : t.issued.length + 2 < 2 ^ 64 := by
    simpa [Tables.issue, Nat.add_assoc] using few
  rw [h.next, UInt64.toNat_add, counted.next, UInt64.toNat_ofNat', UInt64.toNat_one]
  omega

theorem remove (h : t.Shown r) (token : UInt64) :
    (t.remove token).Shown (r.remove token.toNat) := by
  have shown : (r.remove token.toNat).watches =
      (t.watches.filter fun entry => entry.1 ≠ token).map fun entry =>
        (entry.1.toNat, entry.2) := by
    rw [Reactor.remove, h.watches, List.filter_map]
    refine congrArg _ (List.filter_congr fun entry _ => ?_)
    simp [UInt64.toNat_inj]
  unfold Tables.remove
  split
  case h_1 missed =>
    have kept : (t.watches.filter fun entry => entry.1 ≠ token) = t.watches :=
      List.filter_eq_self.mpr fun entry mem =>
        decide_eq_true (Assoc.lookup_eq_none.mp missed entry mem)
    exact ⟨h.next, by rw [shown, kept], h.timers⟩
  case h_2 => exact ⟨h.next, shown, h.timers⟩

/-- The timers without the one of that identifier. -/
theorem timers_cancel (h : t.Shown r) (id : UInt64) :
    (r.cancel id.toNat).timers ~
      (t.timers.filter fun node => node.id ≠ id).map fun node => (node.id.toNat, node.task) := by
  refine (h.timers.filter _).trans (.of_eq ?_)
  rw [List.filter_map]
  refine congrArg _ (List.filter_congr fun node _ => ?_)
  simp [UInt64.toNat_inj]

theorem cancel (h : t.Shown r) (good : t.Good) (id : UInt64) :
    (t.cancel id).Shown (r.cancel id.toNat) := by
  have shown := h.timers_cancel id
  unfold Tables.cancel
  split
  case h_1 missed =>
    have kept : (t.timers.filter fun node => node.id ≠ id) = t.timers := by
      refine List.filter_eq_self.mpr fun node mem => decide_eq_true fun same => ?_
      exact good.indexed.notMem_of_lookup missed (same ▸ List.mem_map_of_mem mem)
    rw [kept] at shown
    exact ⟨h.next, h.watches, shown⟩
  case h_2 address found =>
    rw [good.indexed.filter_address found]
    exact ⟨h.next, h.watches, shown⟩

theorem fire (h : t.Shown r) (good : t.Good) {node : TimerNode τ} {rest : List (TimerNode τ)}
    (front : t.timers = node :: rest) :
    r.timers.lookup node.id.toNat = some node.task ∧
      (t.fire node rest).Shown (r.cancel node.id.toNat) := by
  have ids := good.indexed.ids
  have keys : (r.timers.map Prod.fst).Nodup := by
    rw [(h.timers.map Prod.fst).nodup_iff, List.map_map]
    exact List.map_map (f := TimerNode.id) (g := UInt64.toNat) ▸
      ids.map fun _ _ => UInt64.toNat_inj.mp
  refine ⟨Assoc.lookup_of_mem keys (h.timers.symm.subset ?_), h.next, h.watches, ?_⟩
  · rw [front]
    exact List.mem_cons_self
  · have shown := h.timers_cancel node.id
    have others : (rest.filter fun m => m.id ≠ node.id) = rest := by
      refine List.filter_eq_self.mpr fun m mem => decide_eq_true fun same => ?_
      rw [front] at ids
      exact (List.nodup_cons.mp ids).1 (same ▸ List.mem_map_of_mem mem)
    rwa [front, List.filter_cons, if_neg (by simp), others] at shown

end Shown

/-- **The tables refine the reactor**: whatever happens to them is one of its operations. -/
theorem Change.use (change : Change now t t') (h : t.Shown r) (counted : t.Counted) (good : t.Good)
    (few : t'.issued.length + 1 < 2 ^ 64) : ∃ r', r.Use r' ∧ t'.Shown r' := by
  cases change with
  | same _ => exact ⟨r, .nothing, h.next, h.watches, h.timers⟩
  | issued => exact ⟨_, .skip, h.next_issue counted few, h.watches, h.timers⟩
  | added watch _ =>
    have fresh := counted.fresh (by simp [Tables.issue] at few; omega)
    have new : (t.watches.lookup t.next).isSome = false := by
      rw [Option.isSome_eq_false_iff, Option.isNone_iff_eq_none]
      exact Assoc.lookup_eq_none.mpr fun entry mem same => fresh (same ▸ good.watched entry mem)
    refine ⟨_, .add watch, h.next_issue counted few, ?_, h.timers⟩
    simp [Reactor.add, emplaced, new, h.watches, h.next]
  | removed token => exact ⟨_, .remove token.toNat, h.remove token⟩
  | @armed deadline task address free =>
    refine ⟨_, .timerAt task, h.next_issue counted few, h.watches, ?_⟩
    have nodes := (emplace_perm TimerNode.deadline ⟨address, deadline, t.next, task⟩
      t.timers).map fun node => (node.id.toNat, node.task)
    refine List.Perm.trans ?_ nodes.symm
    rw [Reactor.timerAt, h.next]
    exact List.perm_append_comm.trans (h.timers.cons _)
  | cancelled id => exact ⟨_, .cancel id.toNat, h.cancel good id⟩
  | fired front _ =>
    obtain ⟨live, shown⟩ := h.fire good front
    exact ⟨_, .fire live, shown⟩
  | called _ => exact ⟨r, .nothing, h.next, h.watches, h.timers⟩

end Tables

/-- The watches and timers of a run are those of a reactor that was used. -/
theorem Dispatcher.Runs.reactor {ω τ α : Type} {s : Dispatcher ω τ α}
    {trace : List (Dispatcher ω τ α × DispatchEvent ω τ α)} (run : Dispatcher.Runs trace s)
    (few : s.tables.issued.length + 1 < 2 ^ 64) :
    ∃ r : Reactor (Watch ω) τ α, Relation.ReflTransGen Reactor.Use {} r ∧ s.tables.Shown r := by
  induction run with
  | nil => exact ⟨{}, .refl, rfl, rfl, .refl _⟩
  | @snoc trace s s' e run _ taken ih =>
    have change := Dispatcher.step_change taken
    have fewer := (Tables.issued_prefix change).length_le
    obtain ⟨r, used, shown⟩ := ih (by omega)
    obtain ⟨counted, good⟩ := Dispatcher.Runs.good run
    obtain ⟨r', use, shown'⟩ := change.use shown counted (good (by omega)) few
    exact ⟨r', used.tail use, shown'⟩

end KVRPC.Net
