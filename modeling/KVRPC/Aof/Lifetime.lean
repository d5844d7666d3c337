import KVRPC.Aof.Recovery
import KVRPC.Library.Runs

/-!
# The life of a logger

A constructed logger receives calls in any order. Two invariants hold along the way.

1. `Bounded`: the counters stay ordered and the file stays within its limit, whatever
   the environment does.
2. `Intact`: without faults the file is the last snapshot followed by the batches
   accepted since, as long as the calls are `Aligned`.

The second one needs its condition. The constructor opens the log with `O_APPEND`,
`rewrite` exchanges this descriptor for one of `mkstemp`, and a replay that an exception
ends leaves the offset of that one in the middle of the file. `cursor` follows this through the
calls.
-/
namespace KVRPC.Aof

open Library

namespace AofLogger

inductive Action where
  | start
  | stop
  | logBatch (mutations : List Mutation)
  | rewrite (snapshot : List Mutation)
  /-- `read` is how far into the file the descriptor has come. -/
  | replay (read : Nat)
  deriving DecidableEq, Repr

/-- The offset of the descriptor. -/
def offset (l : AofLogger) : Nat := (l.fs.files l.fd).offset

/-- One public call and how it ended. -/
abbrev Called := Action × Res Exception Unit

inductive Step (R : Regime) (l : AofLogger) : Called → AofLogger → Prop where
  | start (o : Oracle) (ho : o.In R) : Step R l (.start, (start o l).1) (start o l).2.2
  | stop (o : Oracle) (ho : o.In R) : Step R l (.stop, (stop o l).1) (stop o l).2.2
  | log (command : Command) (key value : Bytes) (elapsed : Nat) (o : Oracle) (ho : o.In R) :
      Step R l (.logBatch [⟨command, key, value⟩], (log command key value elapsed o l).1)
        (log command key value elapsed o l).2.2
  | logBatch (ms : List Mutation) (elapsed : Nat) (o : Oracle) (ho : o.In R) :
      Step R l (.logBatch ms, (logBatch ms elapsed o l).1) (logBatch ms elapsed o l).2.2
  | rewrite (snapshot : List Mutation) (o : Oracle) (ho : o.In R) :
      Step R l (.rewrite snapshot, (rewrite snapshot o l).1) (rewrite snapshot o l).2.2
  | replay {β : Type} (callback : Callback β) (b : β) (o : Oracle) (ho : o.In R) :
      Step R l (.replay (replay callback o (l, b)).2.2.1.offset, (replay callback o (l, b)).1)
        (replay callback o (l, b)).2.2.1

/-- A run of calls on one object; nothing follows a crash. -/
abbrev Calls (R : Regime) (l₀ : AofLogger) : List (AofLogger × Called) → AofLogger → Prop :=
  Run (Step R) (fun c => c.2 = .crash) l₀

@[simp] theorem offset_seek (l : AofLogger) (pos : Nat) : (l.seek l.fd pos).offset = pos := by
  simp [offset]

/-- Every call is one of the specified ones. -/
theorem Step.cases {R : Regime} {l l' : AofLogger} {c : Called} (h : Step R l c l')
    (ha : l.Attached) :
    (∃ started, l' = { l with started := started } ∧ c.2 = .ok () ∧
        (c.1 = .start ∨ c.1 = .stop)) ∨
      (∃ ms elapsed, c.1 = .logBatch ms ∧ LogBatchResult R l ms elapsed c.2 l') ∨
      (∃ snapshot, c.1 = .rewrite snapshot ∧ RewriteResult R l snapshot c.2 l') ∨
      (∃ read, c.1 = .replay read ∧ l' = l.seek l.fd read ∧ read ≤ l.file.length ∧
        (c.2 = .ok () → read = l.bytes)) := by
  cases h with
  | start o ho => exact Or.inl ⟨true, rfl, rfl, Or.inl rfl⟩
  | stop o ho => exact Or.inl ⟨false, rfl, rfl, Or.inr rfl⟩
  | log command key value elapsed o ho =>
    exact Or.inr (Or.inl ⟨_, elapsed, rfl, (wp_logBatch _ elapsed ha).run ho⟩)
  | logBatch ms elapsed o ho =>
    exact Or.inr (Or.inl ⟨_, elapsed, rfl, (wp_logBatch _ elapsed ha).run ho⟩)
  | rewrite snapshot o ho => exact Or.inr (Or.inr (Or.inl ⟨_, rfl, (wp_rewrite _ ha).run ho⟩))
  | replay callback b o ho =>
    refine Or.inr (Or.inr (Or.inr ⟨_, rfl, ?_⟩))
    rcases (wp_replay callback b).run ho with ⟨same, hne, _⟩ | ⟨_, replayed⟩
    · rw [congrArg Prod.fst same]
      exact ⟨(seek_self l l.fd).symm, ha.offset_le, fun hok => absurd hok hne⟩
    · obtain ⟨pos, hpos, hle, hend⟩ := replayed.moved
      rw [hpos, offset_seek]
      exact ⟨rfl, hle, fun hok => (hend hok).trans (Nat.zero_add _)⟩

/-! ## Bounds -/

/-- The counters are ordered and the log on disk is within its limit. -/
structure Bounded (l : AofLogger) : Prop where
  rewrittenAt_le : l.rewrittenAt ≤ l.bytes
  bytes_le : l.bytes ≤ l.maxBytes
  disk_le : l.disk.length ≤ l.maxBytes
  bound : l.fs.Bound l.filename

/-- What holds between calls: an object that has not failed knows how long its log is at
most. -/
structure Live (l : AofLogger) : Prop where
  attached : l.Attached
  rewrittenAt_le : l.rewrittenAt ≤ l.bytes
  bytes_le : l.bytes ≤ l.maxBytes
  file_le : l.file.length ≤ l.maxBytes
  file_le_bytes : l.failed = false → l.file.length ≤ l.bytes

theorem Attached.bound {l : AofLogger} (h : l.Attached) : l.fs.Bound l.filename := by
  intro inode hi
  rw [h.named] at hi
  cases hi
  exact h.inode_lt

theorem Live.bounded {l : AofLogger} (h : l.Live) : l.Bounded where
  rewrittenAt_le := h.rewrittenAt_le
  bytes_le := h.bytes_le
  disk_le := h.attached.disk_eq ▸ h.file_le
  bound := h.attached.bound

theorem Attached.seek {l : AofLogger} (h : l.Attached) {pos : Nat} (hp : pos ≤ l.file.length) :
    (l.seek l.fd pos).Attached where
  named := by simpa using h.named
  inode_lt := by simpa using h.inode_lt
  fd_lt := by simpa using h.fd_lt
  offset_le := by simpa [file] using hp

@[simp] theorem file_seek (l : AofLogger) (fd pos : Nat) : (l.seek fd pos).file = l.file := by
  simp [file]

theorem Opened.live {filename : String} {maxBytes : Nat} {fs : Fs} {trace : List Event}
    {l : AofLogger} (h : Opened filename maxBytes fs trace l) : l.Live where
  attached := h.attached
  rewrittenAt_le := by rw [h.rewrittenAt_eq]; exact Nat.zero_le _
  bytes_le := by rw [h.maxBytes_eq]; exact h.bytes_le
  file_le := by rw [h.maxBytes_eq, ← h.bytes_eq]; exact h.bytes_le
  file_le_bytes := fun _ => h.bytes_eq.ge

theorem Live.length_wrote {l : AofLogger} (h : l.Live) {p : Bytes} {ms : List Mutation}
    (hf : l.failed = false) (hp : p <+: records ms)
    (fits : (records ms).length ≤ usub l.maxBytes l.bytes) :
    ((l.fs.wrote l.fd p).content l.fd).length ≤ l.bytes + (records ms).length ∧
      l.bytes + (records ms).length ≤ l.maxBytes := by
  have room := fits
  rw [usub_of_le h.bytes_le] at room
  have grown := Fs.length_wrote_le h.attached.offset_le p
  have known : (l.fs.content l.fd).length ≤ l.bytes := h.file_le_bytes hf
  have := hp.length_le
  have := h.bytes_le
  omega

theorem Attached.afterTorn {l : AofLogger} (h : l.Attached) (ms : List Mutation) (p : Bytes)
    (failed : Bool) : (l.afterTorn ms p failed).Attached :=
  ⟨(h.wrote p).named, (h.wrote p).inode_lt, (h.wrote p).fd_lt, (h.wrote p).offset_le⟩

theorem Attached.afterAppend {l : AofLogger} (h : l.Attached) (ms : List Mutation) (elapsed : Nat) :
    (l.afterAppend ms elapsed).Attached :=
  ⟨(h.wrote _).named, (h.wrote _).inode_lt, (h.wrote _).fd_lt, (h.wrote _).offset_le⟩

/-- A call that did not end in a crash keeps `Live`; after a crash `Bounded` is left. -/
theorem LogBatchResult.bounded {R : Regime} {l l' : AofLogger} {ms : List Mutation} {elapsed : Nat}
    {r : Res Exception Unit} (result : LogBatchResult R l ms elapsed r l') (h : l.Live) :
    l'.Bounded ∧ (r ≠ .crash → l'.Live) := by
  cases result with
  | empty | unavailable | unencodable | overCapacity => exact ⟨h.bounded, fun _ => h⟩
  | appended hne hs hf hl fits =>
    obtain ⟨grown, room⟩ := h.length_wrote hf List.prefix_rfl fits
    have live : (l.afterAppend ms elapsed).Live :=
      ⟨h.attached.afterAppend ms elapsed, h.rewrittenAt_le.trans (Nat.le_add_right _ _), room,
        grown.trans room, fun _ => grown⟩
    exact ⟨live.bounded, fun _ => live⟩
  | torn hne hs hf hl fits faulty p hp e =>
    obtain ⟨grown, room⟩ := h.length_wrote hf hp fits
    have live : (l.afterTorn ms p true).Live :=
      ⟨h.attached.afterTorn ms p true, h.rewrittenAt_le, h.bytes_le, grown.trans room, by
        simp [AofLogger.afterTorn]⟩
    exact ⟨live.bounded, fun _ => live⟩
  | killed hne hs hf hl fits faulty p hp =>
    obtain ⟨grown, room⟩ := h.length_wrote hf hp fits
    have attached := h.attached.afterTorn ms p false
    refine ⟨⟨h.rewrittenAt_le, h.bytes_le, ?_, attached.bound⟩, fun alive => absurd rfl alive⟩
    rw [attached.disk_eq]
    exact grown.trans room

theorem RewriteResult.bounded {R : Regime} {l l' : AofLogger} {snapshot : List Mutation}
    {r : Res Exception Unit} (result : RewriteResult R l snapshot r l') (h : l.Live) :
    l'.Bounded ∧ (r ≠ .crash → l'.Live) := by
  have attached := afterPublish_attached l snapshot
  have file := afterPublish_file l snapshot
  have published : (records snapshot).length ≤ l.maxBytes → (l.afterPublish snapshot).Live :=
    fun fits => ⟨attached, le_rfl, fits, by rw [file]; exact fits, fun _ => by rw [file]; rfl⟩
  cases result with
  | unavailable | unencodable | overCapacity => exact ⟨h.bounded, fun _ => h⟩
  | rewritten hf hl fits =>
    have p := published fits
    have live : (l.afterRewrite snapshot).Live :=
      ⟨⟨attached.named, attached.inode_lt, attached.fd_lt, attached.offset_le⟩, p.rewrittenAt_le,
        p.bytes_le, p.file_le, p.file_le_bytes⟩
    exact ⟨live.bounded, fun _ => live⟩
  | unpublished hf hl fits faulty _ hr fs keeps =>
    have same := file_keeps keeps
    have live : ({ l with fs := fs } : AofLogger).Live :=
      ⟨h.attached.keeps keeps, h.rewrittenAt_le, h.bytes_le, same ▸ h.file_le,
        fun alive => same ▸ h.file_le_bytes alive⟩
    exact ⟨live.bounded, fun _ => live⟩
  | unsynced hf hl fits faulty e =>
    have p := published fits
    have live : ({ l.afterPublish snapshot with failed := true } : AofLogger).Live :=
      ⟨⟨attached.named, attached.inode_lt, attached.fd_lt, attached.offset_le⟩, p.rewrittenAt_le,
        p.bytes_le, p.file_le, fun _ => p.file_le_bytes hf⟩
    exact ⟨live.bounded, fun _ => live⟩
  | killed hf hl fits faulty _ hl' =>
    refine ⟨?_, fun alive => absurd rfl alive⟩
    rcases hl' with rfl | rfl
    · refine ⟨h.rewrittenAt_le, h.bytes_le, ?_, attached.bound⟩
      rw [disk_published]
      exact fits
    · exact (published fits).bounded

theorem Step.bounded {R : Regime} {l l' : AofLogger} {c : Called} (step : Step R l c l')
    (h : l.Live) : l'.Bounded ∧ (c.2 ≠ .crash → l'.Live) := by
  rcases step.cases h.attached with ⟨started, rfl, _⟩ | ⟨ms, elapsed, _, result⟩ |
    ⟨snapshot, _, result⟩ | ⟨pos, _, rfl, hpos, _⟩
  · have a := h.attached
    have live : ({ l with started := started } : AofLogger).Live :=
      ⟨⟨a.named, a.inode_lt, a.fd_lt, a.offset_le⟩, h.rewrittenAt_le, h.bytes_le, h.file_le,
        h.file_le_bytes⟩
    exact ⟨live.bounded, fun _ => live⟩
  · exact result.bounded h
  · exact result.bounded h
  · have same := file_seek l l.fd pos
    have live : (l.seek l.fd pos).Live :=
      ⟨h.attached.seek hpos, h.rewrittenAt_le, h.bytes_le, same ▸ h.file_le,
        fun alive => same ▸ h.file_le_bytes alive⟩
    exact ⟨live.bounded, fun _ => live⟩

theorem Step.same_log {R : Regime} {l l' : AofLogger} {c : Called} (step : Step R l c l')
    (h : l.Attached) : l'.filename = l.filename ∧ l'.maxBytes = l.maxBytes := by
  obtain ⟨action, r⟩ := c
  rcases step.cases h with ⟨started, rfl, _⟩ | ⟨ms, elapsed, _, result⟩ |
    ⟨snapshot, _, result⟩ | ⟨_, _, rfl, _⟩
  · exact ⟨rfl, rfl⟩
  · cases result <;> exact ⟨rfl, rfl⟩
  · cases result with
    | killed hf hl fits faulty _ hl' => rcases hl' with rfl | rfl <;> exact ⟨rfl, rfl⟩
    | _ => exact ⟨rfl, rfl⟩
  · exact ⟨rfl, rfl⟩

theorem construct_opened {filename : String} {maxBytes : Nat} {fs : Fs} {trace : List Event}
    (hb : fs.Bound filename) {o : Oracle}
    (h : (construct o (initial filename maxBytes fs trace)).1 = .ok ()) :
    Opened filename maxBytes fs trace (construct o (initial filename maxBytes fs trace)).2.2 := by
  have faulty : o.In .faulty := trivial
  rcases (wp_construct filename maxBytes trace hb).run faulty with ⟨_, opened⟩ | ⟨hne, _⟩
  · exact opened
  · exact absurd h hne

/-- A log within the limit can be opened again. -/
theorem construct_ok {filename : String} {maxBytes : Nat} {fs : Fs} (trace : List Event)
    (hb : fs.Bound filename) (fits : ((fs.named filename).getD []).length ≤ maxBytes) {o : Oracle}
    (ho : o.NoFailure) : (construct o (initial filename maxBytes fs trace)).1 = .ok () := by
  have faultless : o.In .faultless := ho
  rcases (wp_construct filename maxBytes trace hb).run faultless with
    ⟨hok, _⟩ | ⟨_, _, faulty | long⟩
  · exact hok
  · cases faulty
  · omega

/-- **Size bound and counter arithmetic**, in every state of every run. -/
theorem counters_ordered {filename : String} {maxBytes : Nat} {fs : Fs} (hb : fs.Bound filename)
    {o : Oracle} (opened : (construct o (initial filename maxBytes fs [])).1 = .ok ())
    {trace : List (AofLogger × Called)} {l : AofLogger}
    (run : Calls .faulty (construct o (initial filename maxBytes fs [])).2.2 trace l) :
    l.rewrittenAt ≤ l.bytes ∧ l.bytes ≤ l.maxBytes ∧
      usub l.maxBytes l.bytes = l.maxBytes - l.bytes ∧
      usub l.bytes l.rewrittenAt = l.bytes - l.rewrittenAt ∧
      l.maxBytes = maxBytes ∧ ((l.fs.named filename).getD []).length ≤ maxBytes ∧
      ∀ o' : Oracle, o'.NoFailure →
        (construct o' (initial filename maxBytes l.fs [])).1 = .ok () := by
  have start := construct_opened hb opened
  obtain ⟨bounded, rfl, rfl⟩ : l.Bounded ∧ l.filename = filename ∧ l.maxBytes = maxBytes := by
    refine run.safe (fun _ l => l.Live ∧ l.filename = filename ∧ l.maxBytes = maxBytes)
      (fun _ l => l.Bounded ∧ l.filename = filename ∧ l.maxBytes = maxBytes) (fun _ _ => True)
      ⟨start.live, start.filename_eq, start.maxBytes_eq⟩ ?_ ?_ (fun _ _ => trivial)
    · rintro _ l ⟨live, const⟩
      exact ⟨live.bounded, const⟩
    · rintro _ l c l' ⟨live, rfl, rfl⟩ _ step
      obtain ⟨bounded, carry⟩ := step.bounded live
      have const := step.same_log live.attached
      exact ⟨⟨bounded, const⟩, fun alive => ⟨carry alive, const⟩⟩
  exact ⟨bounded.rewrittenAt_le, bounded.bytes_le, usub_of_le bounded.bytes_le,
    usub_of_le bounded.rewrittenAt_le, rfl, bounded.disk_le,
    fun o' ho' => construct_ok [] bounded.bound bounded.disk_le ho'⟩

/-- A file system whose only file, the log, is empty. -/
def emptyFs : Fs := ⟨fun _ => [], fun _ => some 0, fun _ => ⟨0, false, 0⟩, 1⟩

theorem emptyFs_bound (name : String) : emptyFs.Bound name := by
  rintro _ ⟨⟩
  exact one_pos

theorem counters_ordered_torn :
    let l := (construct .reliable (initial "cache.aof" 64 emptyFs [])).2.2
    let l' := (logBatch [⟨.set, [1], [2]⟩] 0 (.next (.short 4) (.next .fail .reliable))
      (start .reliable l).2.2).2.2
    l'.rewrittenAt ≤ l'.bytes ∧ l'.bytes ≤ l'.maxBytes ∧
      ((l'.fs.named "cache.aof").getD []).length ≤ 64 := by
  intro l l'
  have run : Calls .faulty l _ l' :=
    .snoc (.snoc .nil (by simp) (.start .reliable trivial))
      (by rintro e he; rw [List.mem_singleton.mp he]; decide) (.logBatch _ 0 _ trivial)
  have bounds := counters_ordered (emptyFs_bound "cache.aof") (by decide) run
  exact ⟨bounds.1, bounds.2.1, bounds.2.2.2.2.2.1⟩

/-! ## Contents -/

/-- What the log should hold: the file before the calls, or the last snapshot, followed by
the batches whose append returned since. -/
def contents (before : Bytes) (trace : List (AofLogger × Called)) : Bytes :=
  trace.foldl (fun file e => match e.2 with
    | (.logBatch ms, .ok ()) => file ++ records ms
    | (.rewrite snapshot, .ok ()) => records snapshot
    | _ => file) before

theorem contents_snoc (before : Bytes) (trace : List (AofLogger × Called)) (l : AofLogger)
    (c : Called) : contents before (trace ++ [(l, c)]) =
      match c with
      | (.logBatch ms, .ok ()) => contents before trace ++ records ms
      | (.rewrite snapshot, .ok ()) => records snapshot
      | _ => contents before trace := by
  rw [contents, List.foldl_append]
  rfl

/-- Where the descriptor stands, as far as the calls tell. -/
inductive Cursor where
  /-- The descriptor of the constructor writes at the end of the file wherever it stands. -/
  | append
  | ended
  | midway
  deriving DecidableEq, Repr

/-- A rewrite leaves a descriptor of the other kind at the end of its file. From then on the
last replay decides. -/
def cursor (trace : List (AofLogger × Called)) : Cursor :=
  trace.foldl (fun cursor e => match e.2 with
    | (.rewrite _, .ok ()) => .ended
    | (.replay read, _) =>
      if cursor = .append then .append else if read = e.1.file.length then .ended else .midway
    | _ => cursor) .append

theorem cursor_snoc (trace : List (AofLogger × Called)) (l : AofLogger) (c : Called) :
    cursor (trace ++ [(l, c)]) =
      match c with
      | (.rewrite _, .ok ()) => .ended
      | (.replay read, _) =>
        if cursor trace = .append then .append
        else if read = l.file.length then .ended else .midway
      | _ => cursor trace := by
  rw [cursor, List.foldl_append]
  rfl

/-- The call returns and has appended something. -/
def Writes (c : Called) : Prop := ∃ ms, ms ≠ [] ∧ c = (.logBatch ms, .ok ())

/-- No call writes after a replay that has not read the file to its end, unless the log has been
rewritten in between or not at all. -/
def Aligned (trace : List (AofLogger × Called)) : Prop :=
  ∀ before e, before ++ [e] <+: trace → Writes e.2 → cursor before ≠ .midway

theorem aligned_nil : Aligned [] := by
  intro before e h
  simp at h

theorem aligned_snoc {trace : List (AofLogger × Called)} {e : AofLogger × Called} :
    Aligned (trace ++ [e]) ↔ Aligned trace ∧ (Writes e.2 → cursor trace ≠ .midway) := by
  constructor
  · intro h
    exact ⟨fun before e' earlier => h before e' (earlier.trans (List.prefix_append _ _)),
      h trace e List.prefix_rfl⟩
  · rintro ⟨earlier, last⟩ before e' h
    rcases List.prefix_concat_iff.mp h with same | shorter
    · obtain ⟨rfl, rfl⟩ : before = trace ∧ e' = e := by simpa using same
      exact last
    · exact earlier before e' shorter

/-- The descriptor is as the calls tell. -/
def Cursor.Describes (fs : Fs) (fd : Nat) : Cursor → Prop
  | .append => (fs.files fd).append = true
  | .ended => (fs.files fd).append = false ∧ (fs.files fd).offset = (fs.content fd).length
  | .midway => (fs.files fd).append = false ∧ (fs.files fd).offset < (fs.content fd).length

namespace Cursor.Describes

variable {cursor : Cursor} {fs : Fs} {fd : Nat}

theorem atEnd_iff (h : cursor.Describes fs fd) : fs.AtEnd fd ↔ cursor ≠ .midway := by
  unfold Fs.AtEnd Fs.position
  cases cursor with
  | append =>
    have append : (fs.files fd).append = true := h
    simp [append]
  | ended =>
    obtain ⟨append, offset⟩ := h
    simpa [append] using offset
  | midway =>
    obtain ⟨append, offset⟩ := h
    simpa [append] using offset.ne

theorem of_atEnd (append : (fs.files fd).append = false) (h : fs.AtEnd fd) :
    Cursor.ended.Describes fs fd := by
  unfold Fs.AtEnd Fs.position at h
  simp only [append] at h
  exact ⟨append, h⟩

theorem wrote (h : cursor.Describes fs fd) (atEnd : cursor ≠ .midway) (bytes : Bytes) :
    cursor.Describes (fs.wrote fd bytes) fd := by
  have still := (h.atEnd_iff.mpr atEnd).wrote bytes
  cases cursor with
  | append => exact (Fs.wrote_append fs fd bytes fd).trans h
  | ended => exact of_atEnd ((Fs.wrote_append fs fd bytes fd).trans h.1) still
  | midway => exact absurd rfl atEnd

theorem setOffset (h : cursor.Describes fs fd) {pos : Nat} (inside : pos ≤ (fs.content fd).length) :
    Cursor.Describes (fs.setOffset fd pos) fd
      (if cursor = .append then .append
        else if pos = (fs.content fd).length then .ended else .midway) := by
  by_cases append : cursor = .append
  · subst append
    exact (Fs.setOffset_append fs fd pos fd).trans h
  · have plain : ((fs.setOffset fd pos).files fd).append = false := by
      rw [Fs.setOffset_append]
      cases cursor with
      | append => exact absurd rfl append
      | ended | midway => exact h.1
    rw [if_neg append]
    split_ifs with all
    · exact ⟨plain, by simpa using all⟩
    · exact ⟨plain, by simpa using lt_of_le_of_ne inside all⟩

end Cursor.Describes

/-- The calls have left in the file what they should, and the descriptor where they tell. -/
structure Intact (before : Bytes) (trace : List (AofLogger × Called)) (l : AofLogger) : Prop where
  attached : l.Attached
  file_eq : l.file = contents before trace
  bytes_eq : l.bytes = l.file.length
  cursor : (cursor trace).Describes l.fs l.fd

namespace Intact

variable {l l' : AofLogger} {before : Bytes} {trace : List (AofLogger × Called)}

theorem of_opened {filename : String} {maxBytes : Nat} {fs : Fs}
    (h : Opened filename maxBytes fs [] l) : Intact ((fs.named filename).getD []) [] l :=
  ⟨h.attached, h.file_eq, h.bytes_eq, h.append⟩

/-- The call has done nothing that counts. -/
theorem idle {c : Called} (h : Intact before trace l)
    (contents : AofLogger.contents before (trace ++ [(l, c)]) = AofLogger.contents before trace)
    (cursor : AofLogger.cursor (trace ++ [(l, c)]) = AofLogger.cursor trace) :
    Intact before (trace ++ [(l, c)]) l :=
  ⟨h.attached, h.file_eq.trans contents.symm, h.bytes_eq, cursor ▸ h.cursor⟩

theorem logBatch {ms : List Mutation} {elapsed : Nat} {r : Res Exception Unit}
    (h : Intact before trace l) (result : LogBatchResult .faultless l ms elapsed r l')
    (aligned : Writes (.logBatch ms, r) → AofLogger.cursor trace ≠ .midway) :
    Intact before (trace ++ [(l, (.logBatch ms, r))]) l' := by
  cases result with
  | empty none => exact h.idle (by simp [contents_snoc, none]) (cursor_snoc _ _ _)
  | unavailable | unencodable | overCapacity =>
    exact h.idle (contents_snoc _ _ _ _) (cursor_snoc _ _ _)
  | appended some_written _ _ _ _ =>
    have inside := aligned ⟨ms, some_written, rfl⟩
    have file := file_afterAppend (h.cursor.atEnd_iff.mpr inside) ms elapsed
    refine ⟨h.attached.afterAppend ms elapsed, ?_, ?_, ?_⟩
    · rw [file, contents_snoc, h.file_eq]
    · rw [file, List.length_append, ← h.bytes_eq]
      rfl
    · rw [cursor_snoc]
      exact h.cursor.wrote inside _
  | torn _ _ _ _ _ faulty | killed _ _ _ _ _ faulty => cases faulty

theorem rewrite {snapshot : List Mutation} {r : Res Exception Unit} (h : Intact before trace l)
    (result : RewriteResult .faultless l snapshot r l') :
    Intact before (trace ++ [(l, (.rewrite snapshot, r))]) l' := by
  cases result with
  | unavailable | unencodable | overCapacity =>
    exact h.idle (contents_snoc _ _ _ _) (cursor_snoc _ _ _)
  | rewritten _ _ _ =>
    have attached := afterPublish_attached l snapshot
    have file : (l.afterRewrite snapshot).file = records snapshot := afterPublish_file l snapshot
    refine ⟨⟨attached.named, attached.inode_lt, attached.fd_lt, attached.offset_le⟩, ?_, ?_, ?_⟩
    · rw [file, contents_snoc]
    · rw [file]
      rfl
    · rw [cursor_snoc]
      exact .of_atEnd (publishedFs_append l snapshot) (publishedFs_atEnd l snapshot)
  | unpublished _ _ _ faulty | unsynced _ _ _ faulty | killed _ _ _ faulty => cases faulty

theorem step {c : Called} (h : Intact before trace l) (step : Step .faultless l c l')
    (aligned : Writes c → AofLogger.cursor trace ≠ .midway) :
    Intact before (trace ++ [(l, c)]) l' := by
  obtain ⟨action, r⟩ := c
  rcases step.cases h.attached with ⟨started, rfl, _, haction⟩ | ⟨ms, elapsed, rfl, result⟩ |
    ⟨snapshot, rfl, result⟩ | ⟨read, rfl, rfl, inside, _⟩
  · have a := h.attached
    have kept : Intact before (trace ++ [(l, (action, r))]) l := by
      rcases haction with rfl | rfl
      all_goals exact h.idle (contents_snoc _ _ _ _) (cursor_snoc _ _ _)
    exact ⟨⟨a.named, a.inode_lt, a.fd_lt, a.offset_le⟩, kept.file_eq, kept.bytes_eq, kept.cursor⟩
  · exact h.logBatch result aligned
  · exact h.rewrite result
  · have file := file_seek l l.fd read
    refine ⟨h.attached.seek inside, ?_, ?_, ?_⟩
    · rw [file, contents_snoc, h.file_eq]
    · rw [file, ← h.bytes_eq]
    · rw [cursor_snoc]
      exact h.cursor.setOffset inside

/-- An append is where it should be only if it is made at the end of the file. -/
theorem of_logBatch {ms : List Mutation} (h : Intact before trace l) (some_written : ms ≠ [])
    (step : Step .faultless l (.logBatch ms, .ok ()) l')
    (kept : l'.disk = contents before (trace ++ [(l, (.logBatch ms, .ok ()))])) :
    AofLogger.cursor trace ≠ .midway := by
  rcases step.cases h.attached with ⟨_, _, _, impossible⟩ | ⟨_, elapsed, same, result⟩ |
    ⟨_, impossible, _⟩ | ⟨_, impossible, _⟩
  · simp at impossible
  · cases same
    cases result with
    | empty none => exact absurd none some_written
    | appended _ _ _ _ _ =>
      rw [(h.attached.afterAppend ms elapsed).disk_eq, contents_snoc, ← h.file_eq] at kept
      exact h.cursor.atEnd_iff.mp
        (Fs.atEnd_of_wrote_content h.attached.offset_le (records_ne_nil some_written) kept)
  · cases impossible
  · cases impossible

end Intact

/-- **Log contents.** As long as the calls are aligned, the log is what those that returned have
put there. The condition is exact: the next append that writes leaves the log so if and only if
it is aligned as well. A replay that returns has read the file to its end. -/
theorem disk_eq_contents {filename : String} {maxBytes : Nat} {fs : Fs} (hb : fs.Bound filename)
    {o : Oracle} (opened : (construct o (initial filename maxBytes fs [])).1 = .ok ())
    {trace : List (AofLogger × Called)} {l : AofLogger}
    (run : Calls .faultless (construct o (initial filename maxBytes fs [])).2.2 trace l)
    (aligned : Aligned trace) :
    l.disk = contents ((fs.named filename).getD []) trace ∧
    (∀ ms l', ms ≠ [] → Step .faultless l (.logBatch ms, .ok ()) l' →
      (l'.disk = contents ((fs.named filename).getD []) (trace ++ [(l, (.logBatch ms, .ok ()))]) ↔
        cursor trace ≠ .midway)) ∧
    ∀ read l', Step .faultless l (.replay read, .ok ()) l' → read = l.file.length := by
  have intact : Intact ((fs.named filename).getD []) trace l := by
    refine run.invariant (fun trace l => Aligned trace → Intact _ trace l) (fun _ _ => True)
      (fun _ => .of_opened (construct_opened hb opened)) ?_ (by simp) aligned
    intro trace l c l' ih _ step aligned
    obtain ⟨earlier, last⟩ := aligned_snoc.mp aligned
    exact (ih earlier).step step last
  refine ⟨intact.attached.disk_eq.trans intact.file_eq, fun ms l' some_written step => ⟨?_, ?_⟩,
    fun read l' step => ?_⟩
  · exact intact.of_logBatch some_written step
  · intro inside
    have next := intact.step step fun _ => inside
    exact next.attached.disk_eq.trans next.file_eq
  · rcases step.cases intact.attached with ⟨_, _, _, impossible⟩ | ⟨_, _, impossible, _⟩ |
      ⟨_, impossible, _⟩ | ⟨_, same, _, _, returned⟩
    · simp at impossible
    · cases impossible
    · cases impossible
    · cases same
      exact (returned rfl).trans intact.bytes_eq

/-- A callback that throws at the first record, as the service's does on an invalid one. -/
def refuse : Callback Unit := fun _ b => (.error (runtimeError "Invalid TTL log record"), b)

/-- The callback throws at the only record of the snapshot, which has been read by then. -/
theorem disk_eq_contents_replayed :
    ∃ trace l,
      Calls .faultless (construct .reliable (initial "cache.aof" 200 emptyFs [])).2.2 trace l ∧
      l.disk = records [⟨.set, [1], [1]⟩, ⟨.set, [3], [3]⟩] ∧
      cursor trace = .ended := by
  have run : Calls .faultless (construct .reliable (initial "cache.aof" 200 emptyFs [])).2.2 _ _ :=
    .snoc (.snoc (.snoc (.snoc .nil (by simp)
      (.rewrite [⟨.set, [1], [1]⟩] .reliable trivial)) (by
        simp only [List.nil_append, List.forall_mem_singleton]
        decide +kernel)
      (.replay refuse () .reliable trivial)) (by
        simp only [List.nil_append, List.forall_mem_append, List.forall_mem_singleton]
        decide +kernel)
      (.start .reliable trivial)) (by
        simp only [List.nil_append, List.forall_mem_append, List.forall_mem_singleton]
        decide +kernel)
      (.logBatch [⟨.set, [3], [3]⟩] 0 (.next (.short 4) .reliable) trivial)
  have aligned := disk_eq_contents (emptyFs_bound "cache.aof") (by decide) run (by
    simp only [aligned_snoc, aligned_nil, true_and]
    refine ⟨⟨⟨?_, ?_⟩, ?_⟩, fun _ => by decide +kernel⟩
    all_goals simp [Writes])
  exact ⟨_, _, run, aligned.1.trans (by decide +kernel), by decide +kernel⟩

/-- Without the condition, an append can land on top of a record: `rewrite` leaves a
descriptor without `O_APPEND`, and a replay that stops at the first record leaves its
offset there. -/
theorem append_overwrites :
    ∃ trace l,
      Calls .faultless (construct .reliable (initial "cache.aof" 200 emptyFs [])).2.2 trace l ∧
      l.disk = records [⟨.set, [1], [1]⟩, ⟨.set, [3], [3]⟩] ∧ l.disk ≠ contents [] trace := by
  refine ⟨_, _, .snoc (.snoc (.snoc (.snoc .nil ?_
    (.rewrite [⟨.set, [1], [1]⟩, ⟨.set, [2], [2]⟩] .reliable trivial)) ?_
    (.replay refuse () .reliable trivial)) ?_ (.start .reliable trivial)) ?_
    (.logBatch [⟨.set, [3], [3]⟩] 0 .reliable trivial), ?_, ?_⟩
  · simp
  · simp only [List.nil_append, List.forall_mem_singleton]
    decide +kernel
  · simp only [List.nil_append, List.forall_mem_append, List.forall_mem_singleton]
    decide +kernel
  · simp only [List.nil_append, List.forall_mem_append, List.forall_mem_singleton]
    decide +kernel
  · decide +kernel
  · decide +kernel

end AofLogger
end KVRPC.Aof
