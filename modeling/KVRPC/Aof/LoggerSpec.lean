import KVRPC.Aof.Logger

/-!
# What one call of the logger can do

One specification for each method, over every oracle. `LogBatchResult` and
`RewriteResult` list all ways a call can end together with the state it leaves; later
modules reason from these and never unfold the methods again.

1. `WriteExact` leaves a prefix of its data in the file, all of it when it returns.
2. `logBatch` changes nothing unless it starts to write.
3. `rewrite` leaves the log alone until the rename and replaces it as a whole there.
-/
namespace KVRPC.Aof

open Library

variable {R : Regime}

theorem wp_onFs {α : Type} {m : Sys Exception Fs α} {Q : Res Exception α → AofLogger → Prop}
    {l : AofLogger} (h : Sys.wp R m (fun r fs => Q r { l with fs := fs }) l.fs) :
    Sys.wp R (onFs m) Q l := Sys.wp_zoom h

theorem wp_onFs_call_bind {β : Type} {effect : Fs → Fs} {f : Bool → AofM β}
    {Q : Res Exception β → AofLogger → Prop} {l : AofLogger}
    (done : Sys.wp R (f true) Q { l with fs := effect l.fs })
    (faults : R = .faulty → Sys.wp R (f false) Q l ∧ Q .crash l) :
    Sys.wp R (onFs (Sys.call effect) >>= f) Q l :=
  Sys.wp_bind (wp_onFs (Sys.wp_call done faults))

/-! ## Input and output -/

/-- The result `r` is a normal return, or an environment with faults prevented one. -/
def Ended {ε α : Type} (R : Regime) (r : Res ε α) : Prop := (∃ a, r = .ok a) ∨ R = .faulty

theorem Ended.faulty {ε α : Type} {r : Res ε α} (h : Ended R r) (hr : ∀ a, r ≠ .ok a) :
    R = .faulty := by
  rcases h with ⟨a, ha⟩ | hR
  · exact absurd ha (hr a)
  · exact hR

/-- The result shows what the files hold: no fault can have hidden it. -/
def Conclusive {ε α : Type} (R : Regime) (r : Res ε α) : Prop :=
  R = .faultless ∨ ∃ a, r = .ok a

theorem Conclusive.faultless {ε α : Type} {r : Res ε α} (h : Conclusive R r)
    (hr : ∀ a, r ≠ .ok a) : R = .faultless := by
  rcases h with hR | ⟨a, ha⟩
  · exact hR
  · exact absurd ha (hr a)

theorem wp_writeExact (fd : Nat) (data : Bytes) (fs : Fs)
    (h : (fs.files fd).offset ≤ (fs.content fd).length) :
    Sys.wp R (writeExact fd data) (fun r fs' => ∃ p, p <+: data ∧ fs' = fs.wrote fd p ∧
      (r = .ok () ∧ p = data ∨ R = .faulty ∧ r ≠ .ok ())) fs := by
  intro o ho
  unfold writeExact
  induction o generalizing data fs with
  | reliable =>
    cases data with
    | nil => exact ⟨ho, [], List.prefix_rfl, by simp [writeExactLoop], Or.inl ⟨rfl, rfl⟩⟩
    | cons b data =>
      exact ⟨ho, b :: data, List.prefix_rfl, by simp [writeExactLoop, Fs.wrote],
        Or.inl ⟨rfl, rfl⟩⟩
  | crash =>
    cases data with
    | nil => exact ⟨ho, [], List.prefix_rfl, by simp [writeExactLoop], Or.inl ⟨rfl, rfl⟩⟩
    | cons b data =>
      exact ⟨ho, [], List.nil_prefix, by simp [writeExactLoop],
        Or.inr ⟨ho.faulty_of_crash, by simp [writeExactLoop]⟩⟩
  | next head o ih =>
    cases data with
    | nil => exact ⟨ho, [], List.prefix_rfl, by simp [writeExactLoop], Or.inl ⟨rfl, rfl⟩⟩
    | cons b data =>
      cases head with
      | ok =>
        exact ⟨ho.rest, b :: data, List.prefix_rfl, by simp [writeExactLoop, Fs.wrote],
          Or.inl ⟨rfl, rfl⟩⟩
      | short k =>
        -- The first `k + 1` octets are in the file; the loop goes on with the others.
        have piece : fs.write fd (b :: data.take k) = fs.wrote fd (b :: data.take k) := by
          simp [Fs.wrote]
        obtain ⟨ho', p, hp, hfs, hr⟩ := ih (data.drop k) (fs.write fd (b :: data.take k))
          (Fs.offset_write_le h _) ho.rest
        refine ⟨ho', (b :: data.take k) ++ p, ?_, ?_, ?_⟩
        · obtain ⟨q, hq⟩ := hp
          exact ⟨q, by simp [List.append_assoc, hq]⟩
        · rw [← Fs.wrote_wrote h, ← piece]
          exact hfs
        · rcases hr with ⟨hok, rfl⟩ | hfault
          · exact Or.inl ⟨hok, by simp⟩
          · exact Or.inr hfault
      | eintr => exact ih (b :: data) fs h ho.rest
      | fail =>
        exact ⟨ho.rest, [], List.nil_prefix, by simp [writeExactLoop],
          Or.inr ⟨ho.faulty_of_fail, by simp [writeExactLoop]⟩⟩

theorem wp_sync (fs : Fs) : Sys.wp R sync (fun r fs' => fs' = fs ∧ Ended R r) fs := by
  exact Sys.wp_callUninterrupted_or_throw (Sys.wp_pure ⟨rfl, Or.inl ⟨_, rfl⟩⟩)
    fun hR => ⟨⟨rfl, Or.inr hR⟩, rfl, Or.inr hR⟩

theorem wp_syncDirectory (fs : Fs) :
    Sys.wp R syncDirectory (fun r fs' => fs' = fs ∧ Ended R r) fs := by
  exact Sys.wp_call_or_throw (wp_sync fs) fun hR => ⟨⟨rfl, Or.inr hR⟩, rfl, Or.inr hR⟩

/-- `ReadExact` returns the octets at the offset, or stops somewhere before them. Without
faults it only stops at the end of the file. -/
theorem wp_readExact (fd n : Nat) (fs : Fs)
    (h : (fs.files fd).offset ≤ (fs.content fd).length) :
    Sys.wp R (readExact fd n) (fun r fs' => ∃ k, fs' = fs.setOffset fd ((fs.files fd).offset + k) ∧
      (fs.files fd).offset + k ≤ (fs.content fd).length ∧
      (k = n ∧ r = .ok (((fs.content fd).drop (fs.files fd).offset).take n) ∨
        (∀ a, r ≠ .ok a) ∧ (R = .faulty ∨ (fs.content fd).length < (fs.files fd).offset + n ∧
          r = .throw (runtimeError "Truncated AOF record")))) fs := by
  suffices ∀ o : Oracle, o.In R → ∀ (n : Nat) (got : Bytes) (fs : Fs),
      (fs.files fd).offset ≤ (fs.content fd).length →
      (readExactLoop fd o n got fs).2.1.In R ∧
      ∃ k, (readExactLoop fd o n got fs).2.2 = fs.setOffset fd ((fs.files fd).offset + k) ∧
      (fs.files fd).offset + k ≤ (fs.content fd).length ∧
      (k = n ∧ (readExactLoop fd o n got fs).1 =
          .ok (got ++ ((fs.content fd).drop (fs.files fd).offset).take n) ∨
        (∀ a, (readExactLoop fd o n got fs).1 ≠ .ok a) ∧
          (R = .faulty ∨ (fs.content fd).length < (fs.files fd).offset + n ∧
          (readExactLoop fd o n got fs).1 = .throw (runtimeError "Truncated AOF record"))) from
    fun o ho => this o ho n [] fs h
  intro o
  induction o with
  | reliable =>
    intro ho n got fs h
    cases n with
    | zero =>
      exact ⟨ho, 0, by simp [readExactLoop], by omega, Or.inl ⟨rfl, by simp [readExactLoop]⟩⟩
    | succ n =>
      have len := fs.length_peek fd (n + 1)
      unfold readExactLoop
      split
      · rename_i full
        exact ⟨ho, n + 1, by simp only [Fs.advance_eq, full], by omega, Or.inl ⟨rfl, rfl⟩⟩
      · rename_i short
        exact ⟨ho, _, Fs.advance_eq fs fd (n + 1), by omega,
          Or.inr ⟨by simp, Or.inr ⟨by omega, rfl⟩⟩⟩
  | crash =>
    intro ho n got fs h
    cases n with
    | zero =>
      exact ⟨ho, 0, by simp [readExactLoop], by omega, Or.inl ⟨rfl, by simp [readExactLoop]⟩⟩
    | succ n =>
      exact ⟨ho, 0, by simp [readExactLoop], by omega,
        Or.inr ⟨by simp [readExactLoop], Or.inl ho.faulty_of_crash⟩⟩
  | next head o ih =>
    intro ho n got fs h
    cases n with
    | zero =>
      exact ⟨ho, 0, by simp [readExactLoop], by omega, Or.inl ⟨rfl, by simp [readExactLoop]⟩⟩
    | succ n =>
      -- A read that returns `part` leaves the loop to fetch the octets behind it.
      have part : ∀ want, 0 < want → want ≤ n + 1 →
          ∀ r : Res Exception Bytes × Oracle × Fs,
          r = (if fs.peek fd want = [] then
              (.throw (runtimeError "Truncated AOF record"), o, fs)
            else readExactLoop fd o (n + 1 - (fs.peek fd want).length) (got ++ fs.peek fd want)
              (fs.advance fd want)) →
          r.2.1.In R ∧ ∃ k, r.2.2 = fs.setOffset fd ((fs.files fd).offset + k) ∧
            (fs.files fd).offset + k ≤ (fs.content fd).length ∧
            (k = n + 1 ∧
              r.1 = .ok (got ++ ((fs.content fd).drop (fs.files fd).offset).take (n + 1)) ∨
              (∀ a, r.1 ≠ .ok a) ∧ (R = .faulty ∨
                (fs.content fd).length < (fs.files fd).offset + (n + 1) ∧
                r.1 = .throw (runtimeError "Truncated AOF record"))) := by
        intro want pos le r hr
        have len := fs.length_peek fd want
        split at hr
        · rename_i empty
          rw [empty] at len
          subst hr
          refine ⟨ho.rest, 0, by simp, by omega, Or.inr ⟨by simp, Or.inr ⟨?_, rfl⟩⟩⟩
          simp only [List.length_nil] at len
          omega
        · subst hr
          have adv : ((fs.advance fd want).files fd).offset =
              (fs.files fd).offset + (fs.peek fd want).length := by simp [Fs.advance_eq]
          have same : (fs.advance fd want).content fd = fs.content fd := by simp [Fs.advance_eq]
          obtain ⟨ho', k, hfs, hk, hr⟩ := ih ho.rest (n + 1 - (fs.peek fd want).length)
            (got ++ fs.peek fd want) (fs.advance fd want) (by rw [adv, same]; omega)
          rw [adv, same] at hk hr
          refine ⟨ho', (fs.peek fd want).length + k, ?_, by omega, ?_⟩
          · rw [hfs, adv, Fs.advance_eq, Fs.setOffset_setOffset, Nat.add_assoc]
          · rcases hr with ⟨hk', hok⟩ | ⟨hne, hR | ⟨hshort, hthrow⟩⟩
            · refine Or.inl ⟨by omega, ?_⟩
              rw [hok, List.append_assoc, Fs.peek_append le, Fs.peek_eq]
            · exact Or.inr ⟨hne, Or.inl hR⟩
            · exact Or.inr ⟨hne, Or.inr ⟨by omega, hthrow⟩⟩
      cases head with
      | ok => exact part (n + 1) (by omega) le_rfl _ (by rw [readExactLoop])
      | short k => exact part (min (k + 1) (n + 1)) (by omega) (by omega) _ (by rw [readExactLoop])
      | eintr => exact ih ho.rest (n + 1) got fs h
      | fail =>
        exact ⟨ho.rest, 0, by simp [readExactLoop], by omega,
          Or.inr ⟨by simp [readExactLoop], Or.inl ho.faulty_of_fail⟩⟩

namespace AofLogger

theorem wp_writeAll (fd : Nat) (ms : List Mutation) (hl : ∀ m ∈ ms, Loggable m) (l : AofLogger)
    (h : (l.fs.files fd).offset ≤ (l.fs.content fd).length) :
    Sys.wp R (writeAll fd ms) (fun r l' => ∃ p, p <+: records ms ∧
      l' = { l with fs := l.fs.wrote fd p } ∧
      (r = .ok () ∧ p = records ms ∨ R = .faulty ∧ r ≠ .ok ())) l := by
  induction ms generalizing l with
  | nil => exact Sys.wp_pure ⟨[], List.prefix_rfl, by simp, Or.inl ⟨rfl, rfl⟩⟩
  | cons m ms ih =>
    refine Sys.wp_bind ?_
    refine Sys.wp_lift_bind ?_ ?_
    · intro bytes hb
      obtain ⟨_, rfl⟩ := encode_ok_iff.mp hb
      refine wp_onFs ((wp_writeExact fd (record m) l.fs h).mono ?_)
      rintro r _ ⟨p, hp, rfl, ⟨rfl, rfl⟩ | ⟨hR, hne⟩⟩
      · -- This record is complete, the others follow it.
        refine (ih (fun x hx => hl x (by simp [hx])) { l with fs := l.fs.wrote fd (record m) }
          (Fs.offset_wrote_le h (record m))).mono ?_
        rintro r _ ⟨q, hq, rfl, hr⟩
        refine ⟨record m ++ q, (List.prefix_append_right_inj _).mpr hq, ?_, ?_⟩
        · simp only [Fs.wrote_wrote h]
        · rcases hr with ⟨hok, rfl⟩ | hfault
          · exact Or.inl ⟨hok, rfl⟩
          · exact Or.inr hfault
      · have stop : ∃ q, q <+: records (m :: ms) ∧
            ({ l with fs := l.fs.wrote fd p } : AofLogger) = { l with fs := l.fs.wrote fd q } :=
          ⟨p, hp.trans (List.prefix_append _ _), rfl⟩
        obtain ⟨q, hq, heq⟩ := stop
        cases r with
        | ok a => exact absurd rfl hne
        | throw e => exact ⟨q, hq, heq, Or.inr ⟨hR, by simp⟩⟩
        | crash => exact ⟨q, hq, heq, Or.inr ⟨hR, by simp⟩⟩
    · intro e he
      rw [encode_of_loggable (hl m (by simp))] at he
      cases he

/-! ## The open log -/

/-- The descriptor refers to the file the log's name refers to. -/
structure Attached (l : AofLogger) : Prop where
  named : l.fs.names l.filename = some (l.fs.files l.fd).inode
  inode_lt : (l.fs.files l.fd).inode < l.fs.fresh
  fd_lt : l.fd < l.fs.fresh
  offset_le : (l.fs.files l.fd).offset ≤ (l.fs.content l.fd).length

/-- The contents of the open log. -/
def file (l : AofLogger) : Bytes := l.fs.content l.fd

/-- What a process that opens the log finds on disk. -/
def disk (l : AofLogger) : Bytes := (l.fs.named l.filename).getD []

theorem Attached.disk_eq {l : AofLogger} (h : l.Attached) : l.disk = l.file := by
  simp [disk, file, Fs.named, Fs.content, h.named]

theorem Attached.keeps {l : AofLogger} (h : l.Attached) {fs : Fs}
    (k : Fs.Keeps l.fs fs l.filename l.fd) : ({ l with fs := fs } : AofLogger).Attached where
  named := by simp only [k.name, k.file, h.named]
  inode_lt := by simp only [k.file]; exact h.inode_lt.trans_le k.fresh
  fd_lt := h.fd_lt.trans_le k.fresh
  offset_le := by simp only [k.file, k.content]; exact h.offset_le

theorem file_keeps {l : AofLogger} {fs : Fs} (k : Fs.Keeps l.fs fs l.filename l.fd) :
    ({ l with fs := fs } : AofLogger).file = l.file := k.content

theorem disk_keeps {l : AofLogger} (h : l.Attached) {fs : Fs}
    (k : Fs.Keeps l.fs fs l.filename l.fd) :
    ({ l with fs := fs } : AofLogger).disk = l.file := by
  rw [(h.keeps k).disk_eq, file_keeps k]

theorem Attached.wrote {l : AofLogger} (h : l.Attached) (p : Bytes) :
    ({ l with fs := l.fs.wrote l.fd p } : AofLogger).Attached where
  named := by simpa using h.named
  inode_lt := by simpa using h.inode_lt
  fd_lt := by simpa using h.fd_lt
  offset_le := Fs.offset_wrote_le h.offset_le p

/-! ## Appending -/

/-- The object after `logBatch` has returned. -/
def afterAppend (l : AofLogger) (ms : List Mutation) (elapsed : Nat) : AofLogger :=
  { l with
    fs := l.fs.wrote l.fd (records ms)
    bytes := l.bytes + (records ms).length
    stats := { l.stats with
      syncUs := l.stats.syncUs + elapsed
      bytes := l.bytes + (records ms).length
      records := l.stats.records + ms.length
      syncs := l.stats.syncs + 1 }
    trace := l.trace ++ [.appending ms] ++ [.appended ms] }

/-- The object after an append that did not return; an exception also sets `failed_`. -/
def afterTorn (l : AofLogger) (ms : List Mutation) (p : Bytes) (failed : Bool) : AofLogger :=
  { l with
    fs := l.fs.wrote l.fd p
    failed := failed
    trace := l.trace ++ [.appending ms] }

theorem file_afterAppend {l : AofLogger} (h : l.fs.AtEnd l.fd) (ms : List Mutation)
    (elapsed : Nat) : (l.afterAppend ms elapsed).file = l.file ++ records ms :=
  Fs.wrote_content_of_atEnd h _

theorem file_afterTorn {l : AofLogger} (h : l.fs.AtEnd l.fd) (ms : List Mutation) (p : Bytes)
    (failed : Bool) : (l.afterTorn ms p failed).file = l.file ++ p := Fs.wrote_content_of_atEnd h _

inductive LogBatchResult (R : Regime) (l : AofLogger) (ms : List Mutation) (elapsed : Nat) :
    Res Exception Unit → AofLogger → Prop where
  | empty (h : ms = []) : LogBatchResult R l ms elapsed (.ok ()) l
  | unavailable (hne : ms ≠ []) (h : l.started = false ∨ l.failed = true) :
      LogBatchResult R l ms elapsed (.throw (runtimeError "AOF unavailable")) l
  | unencodable (hne : ms ≠ []) (hs : l.started = true) (hf : l.failed = false)
      (e : Exception) (h : size ms = .error e) : LogBatchResult R l ms elapsed (.throw e) l
  | overCapacity (hne : ms ≠ []) (hs : l.started = true) (hf : l.failed = false)
      (hl : ∀ m ∈ ms, Loggable m) (h : usub l.maxBytes l.bytes < (records ms).length) :
      LogBatchResult R l ms elapsed
        (.throw (aofCapacityError "AOF capacity exceeded after compaction")) l
  | appended (hne : ms ≠ []) (hs : l.started = true) (hf : l.failed = false)
      (hl : ∀ m ∈ ms, Loggable m) (fits : (records ms).length ≤ usub l.maxBytes l.bytes) :
      LogBatchResult R l ms elapsed (.ok ()) (l.afterAppend ms elapsed)
  | torn (hne : ms ≠ []) (hs : l.started = true) (hf : l.failed = false)
      (hl : ∀ m ∈ ms, Loggable m) (fits : (records ms).length ≤ usub l.maxBytes l.bytes)
      (faulty : R = .faulty) (p : Bytes) (hp : p <+: records ms) (e : Exception) :
      LogBatchResult R l ms elapsed (.throw e) (l.afterTorn ms p true)
  | killed (hne : ms ≠ []) (hs : l.started = true) (hf : l.failed = false)
      (hl : ∀ m ∈ ms, Loggable m) (fits : (records ms).length ≤ usub l.maxBytes l.bytes)
      (faulty : R = .faulty) (p : Bytes) (hp : p <+: records ms) :
      LogBatchResult R l ms elapsed .crash (l.afterTorn ms p false)

theorem wp_logBatch (ms : List Mutation) (elapsed : Nat) {l : AofLogger} (ha : l.Attached) :
    Sys.wp R (logBatch ms elapsed) (LogBatchResult R l ms elapsed) l := by
  unfold logBatch
  split
  · exact Sys.wp_pure (.empty ‹_›)
  rename_i hne
  refine Sys.wp_get_bind ?_
  split
  · exact Sys.wp_throw (.unavailable hne ‹_›)
  rename_i available
  have hs : l.started = true := by simpa using (not_or.mp available).1
  have hf : l.failed = false := by simpa using (not_or.mp available).2
  refine Sys.wp_lift_bind ?_ fun e he => .unencodable hne hs hf e he
  intro n hn
  obtain ⟨hl, rfl⟩ := size_ok_iff.mp hn
  split
  · exact Sys.wp_throw (.overCapacity hne hs hf hl ‹_›)
  rename_i fits
  rw [gt_iff_lt, not_lt] at fits
  refine Sys.wp_modify_bind (Sys.wp_bind (Sys.wp_tryCatch ?_))
  refine Sys.wp_bind ((wp_writeAll l.fd ms hl { l with trace := l.trace ++ [.appending ms] }
    ha.offset_le).mono ?_)
  rintro r _ ⟨p, hp, rfl, ⟨rfl, rfl⟩ | ⟨hR, hne'⟩⟩
  · -- All records are in the file; what remains is the barrier and the bookkeeping.
    refine Sys.wp_bind (wp_onFs ((wp_sync _).mono ?_))
    rintro r fs ⟨rfl, hr⟩
    cases r with
    | ok a => exact Sys.wp_modify (Sys.wp_modify_bind (Sys.wp_modify (.appended hne hs hf hl fits)))
    | throw e =>
      have hR := hr.faulty (by simp)
      exact Sys.wp_modify_bind (Sys.wp_throw (.torn hne hs hf hl fits hR _ List.prefix_rfl e))
    | crash =>
      have hR := hr.faulty (by simp)
      have := @LogBatchResult.killed _ _ _ elapsed hne hs hf hl fits hR _ List.prefix_rfl
      rw [afterTorn, ← hf] at this
      exact this
  · cases r with
    | ok a => exact absurd rfl hne'
    | throw e => exact Sys.wp_modify_bind (Sys.wp_throw (.torn hne hs hf hl fits hR p hp e))
    | crash =>
      have := @LogBatchResult.killed _ _ _ elapsed hne hs hf hl fits hR p hp
      rw [afterTorn, ← hf] at this
      exact this

/-! ## Rewriting -/

theorem replacementName_ne (l : AofLogger) : l.replacementName ≠ l.filename := by
  intro h
  have := congrArg String.length h
  simp only [replacementName, String.length_append] at this
  have dash : ".rewrite-".length = 9 := rfl
  omega

/-- The file system of `l` with an empty replacement file next to the log. -/
abbrev withReplacement (l : AofLogger) : Fs := l.fs.mkstemp l.replacementName

theorem keeps_mkstemp {l : AofLogger} (ha : l.Attached) :
    Fs.Keeps l.fs l.withReplacement l.filename l.fd where
  file := by
    have := ha.fd_lt
    simp [Fs.mkstemp, Function.update_of_ne (show l.fd ≠ l.fs.fresh + 1 by omega)]
  data := by
    have := ha.inode_lt
    simp [Fs.mkstemp, Function.update_of_ne (show (l.fs.files l.fd).inode ≠ l.fs.fresh by omega)]
  name := by simp [Fs.mkstemp, Function.update_of_ne (replacementName_ne l).symm]
  fresh := by simp [Fs.mkstemp]

theorem mkstemp_file (fs : Fs) (name : String) :
    (fs.mkstemp name).files (fs.fresh + 1) = ⟨fs.fresh, false, 0⟩ := by
  simp [Fs.mkstemp]

theorem mkstemp_content (fs : Fs) (name : String) :
    (fs.mkstemp name).content (fs.fresh + 1) = [] := by
  simp [Fs.content, Fs.mkstemp]

theorem mkstemp_atEnd (fs : Fs) (name : String) : (fs.mkstemp name).AtEnd (fs.fresh + 1) := by
  simp [Fs.AtEnd, Fs.position, mkstemp_file, mkstemp_content]

theorem keeps_replacement {l : AofLogger} (ha : l.Attached) (p : Bytes) :
    Fs.Keeps l.fs (l.withReplacement.wrote (l.fs.fresh + 1) p) l.filename l.fd := by
  refine (keeps_mkstemp ha).trans (Fs.Keeps.wrote ?_ ?_ p)
  · have := ha.fd_lt
    omega
  · rw [mkstemp_file, (keeps_mkstemp ha).file]
    have := ha.inode_lt
    simp only
    omega

theorem keeps_unlink {l : AofLogger} {fs : Fs} (k : Fs.Keeps l.fs fs l.filename l.fd) :
    Fs.Keeps l.fs (fs.unlink l.replacementName) l.filename l.fd :=
  k.trans ⟨rfl, rfl, by simp [Fs.unlink, Function.update_of_ne (replacementName_ne l).symm], le_rfl⟩

/-- The replacement, complete and under the log's name. -/
abbrev publishedFs (l : AofLogger) (snapshot : List Mutation) : Fs :=
  (l.withReplacement.wrote (l.fs.fresh + 1) (records snapshot)).rename l.replacementName l.filename

/-- The object after the rename and the exchange of descriptors. -/
def afterPublish (l : AofLogger) (snapshot : List Mutation) : AofLogger :=
  { l with
    fd := l.fs.fresh + 1
    bytes := (records snapshot).length
    rewrittenAt := (records snapshot).length
    stats := { l.stats with
      bytes := (records snapshot).length, rewrites := l.stats.rewrites + 1 }
    fs := l.publishedFs snapshot
    trace := l.trace ++ [.published snapshot] }

/-- The object after `rewrite` has returned. -/
def afterRewrite (l : AofLogger) (snapshot : List Mutation) : AofLogger :=
  { l.afterPublish snapshot with
    trace := l.trace ++ [.published snapshot] ++ [.rewritten snapshot] }

theorem publishedFs_name (l : AofLogger) (snapshot : List Mutation) :
    (l.publishedFs snapshot).names l.filename = some l.fs.fresh := by
  simp [Fs.rename, Fs.mkstemp]

theorem publishedFs_inode (l : AofLogger) (snapshot : List Mutation) :
    ((l.publishedFs snapshot).files (l.fs.fresh + 1)).inode = l.fs.fresh := by
  simp only [Fs.rename, Fs.wrote_inode, mkstemp_file]

theorem publishedFs_content (l : AofLogger) (snapshot : List Mutation) :
    (l.publishedFs snapshot).content (l.fs.fresh + 1) = records snapshot := by
  have := Fs.wrote_content_of_atEnd (mkstemp_atEnd l.fs l.replacementName) (records snapshot)
  rw [mkstemp_content, List.nil_append] at this
  exact this

theorem publishedFs_append (l : AofLogger) (snapshot : List Mutation) :
    ((l.publishedFs snapshot).files (l.fs.fresh + 1)).append = false := by
  simp only [Fs.rename, Fs.wrote_append, mkstemp_file]

theorem publishedFs_atEnd (l : AofLogger) (snapshot : List Mutation) :
    (l.publishedFs snapshot).AtEnd (l.fs.fresh + 1) :=
  (mkstemp_atEnd l.fs l.replacementName).wrote (records snapshot)

theorem afterPublish_attached (l : AofLogger) (snapshot : List Mutation) :
    (l.afterPublish snapshot).Attached where
  named := by
    simp only [afterPublish]
    rw [publishedFs_name, publishedFs_inode]
  inode_lt := by
    simp only [afterPublish, publishedFs_inode]
    simp [Fs.rename, Fs.mkstemp]
  fd_lt := by simp [afterPublish, Fs.rename, Fs.mkstemp]
  offset_le := by
    refine Fs.offset_wrote_le ?_ (records snapshot)
    simp [mkstemp_file]

theorem afterPublish_file (l : AofLogger) (snapshot : List Mutation) :
    (l.afterPublish snapshot).file = records snapshot := publishedFs_content l snapshot

/-- A process killed right after the rename leaves the snapshot as the log. -/
theorem disk_published (l : AofLogger) (snapshot : List Mutation) (trace : List Event) :
    ({ l with fs := l.publishedFs snapshot, trace := trace } : AofLogger).disk =
      records snapshot := by
  have := publishedFs_content l snapshot
  rw [Fs.content, publishedFs_inode] at this
  simp [disk, Fs.named, publishedFs_name, this]

inductive RewriteResult (R : Regime) (l : AofLogger) (snapshot : List Mutation) :
    Res Exception Unit → AofLogger → Prop where
  | unavailable (h : l.failed = true) :
      RewriteResult R l snapshot (.throw (runtimeError "AOF unavailable")) l
  | unencodable (hf : l.failed = false) (e : Exception) (h : size snapshot = .error e) :
      RewriteResult R l snapshot (.throw e) l
  | overCapacity (hf : l.failed = false) (hl : ∀ m ∈ snapshot, Loggable m)
      (h : l.maxBytes < (records snapshot).length) :
      RewriteResult R l snapshot (.throw (aofCapacityError "Snapshot exceeds AOF limit")) l
  | rewritten (hf : l.failed = false) (hl : ∀ m ∈ snapshot, Loggable m)
      (fits : (records snapshot).length ≤ l.maxBytes) :
      RewriteResult R l snapshot (.ok ()) (l.afterRewrite snapshot)
  | unpublished (hf : l.failed = false) (hl : ∀ m ∈ snapshot, Loggable m)
      (fits : (records snapshot).length ≤ l.maxBytes) (faulty : R = .faulty)
      (r : Res Exception Unit) (hr : r ≠ .ok ()) (fs : Fs)
      (keeps : Fs.Keeps l.fs fs l.filename l.fd) :
      RewriteResult R l snapshot r { l with fs := fs }
  | unsynced (hf : l.failed = false) (hl : ∀ m ∈ snapshot, Loggable m)
      (fits : (records snapshot).length ≤ l.maxBytes) (faulty : R = .faulty) (e : Exception) :
      RewriteResult R l snapshot (.throw e) { l.afterPublish snapshot with failed := true }
  | killed (hf : l.failed = false) (hl : ∀ m ∈ snapshot, Loggable m)
      (fits : (records snapshot).length ≤ l.maxBytes) (faulty : R = .faulty) (l' : AofLogger)
      (hl' : l' = { l with
          fs := l.publishedFs snapshot, trace := l.trace ++ [.published snapshot] } ∨
        l' = l.afterPublish snapshot) : RewriteResult R l snapshot .crash l'

theorem wp_writeReplacement (snapshot : List Mutation) (hl : ∀ m ∈ snapshot, Loggable m)
    {l : AofLogger} (ha : l.Attached) :
    Sys.wp R (writeReplacement l.replacementName (l.fs.fresh + 1) snapshot)
      (fun r l' => (r = .ok () ∧ l' = { l with
          fs := l.publishedFs snapshot, trace := l.trace ++ [.published snapshot] }) ∨
        (R = .faulty ∧ r ≠ .ok () ∧
          ∃ fs, Fs.Keeps l.fs fs l.filename l.fd ∧ l' = { l with fs := fs }))
      { l with fs := l.withReplacement } := by
  have stop : ∀ p, ∃ fs, Fs.Keeps l.fs fs l.filename l.fd ∧
      ({ l with fs := l.withReplacement.wrote (l.fs.fresh + 1) p } : AofLogger) =
        { l with fs := fs } := fun p => ⟨_, keeps_replacement ha p, rfl⟩
  have none : ∃ fs, Fs.Keeps l.fs fs l.filename l.fd ∧
      ({ l with fs := l.withReplacement } : AofLogger) = { l with fs := fs } :=
    ⟨_, keeps_mkstemp ha, rfl⟩
  -- The same continuation runs whether or not `fcntl` succeeds.
  have locked : Sys.wp R
      (onFs (Sys.call id) >>= fun ok => if ok = true then (do
        writeAll (l.fs.fresh + 1) snapshot
        onFs sync
        let renamed ← Sys.call fun l' : AofLogger => { l' with
          fs := l'.fs.rename l.replacementName l'.filename
          trace := l'.trace ++ [.published snapshot] }
        if renamed = true then pure ()
        else Sys.throw (runtimeError "Cannot publish AOF rewrite"))
      else Sys.throw (runtimeError "Cannot lock AOF replacement"))
      (fun r l' => (r = .ok () ∧ l' = { l with
          fs := l.publishedFs snapshot, trace := l.trace ++ [.published snapshot] }) ∨
        (R = .faulty ∧ r ≠ .ok () ∧
          ∃ fs, Fs.Keeps l.fs fs l.filename l.fd ∧ l' = { l with fs := fs }))
      { l with fs := l.withReplacement } := by
    refine wp_onFs_call_bind ?_ fun hR => ⟨?_, Or.inr ⟨hR, by simp, none⟩⟩
    · rw [if_pos rfl]
      refine Sys.wp_bind ((wp_writeAll (l.fs.fresh + 1) snapshot hl
        { l with fs := l.withReplacement } (by simp [mkstemp_file])).mono ?_)
      rintro r _ ⟨p, _, rfl, ⟨rfl, rfl⟩ | ⟨hR, hne⟩⟩
      · refine Sys.wp_bind (wp_onFs ((wp_sync _).mono ?_))
        rintro r fs ⟨rfl, hr⟩
        cases r with
        | ok a =>
          exact Sys.wp_call_or_throw (Sys.wp_pure (Or.inl ⟨rfl, rfl⟩)) fun hR =>
            ⟨Or.inr ⟨hR, by simp, stop _⟩, Or.inr ⟨hR, by simp, stop _⟩⟩
        | throw e => exact Or.inr ⟨hr.faulty (by simp), by simp, stop _⟩
        | crash => exact Or.inr ⟨hr.faulty (by simp), by simp, stop _⟩
      · cases r with
        | ok a => exact absurd rfl hne
        | throw e => exact Or.inr ⟨hR, by simp, stop p⟩
        | crash => exact Or.inr ⟨hR, by simp, stop p⟩
    · rw [if_neg (by simp)]
      exact Sys.wp_throw (Or.inr ⟨hR, by simp, none⟩)
  exact wp_onFs_call_bind locked fun hR => ⟨locked, Or.inr ⟨hR, by simp, none⟩⟩

theorem wp_rewrite (snapshot : List Mutation) {l : AofLogger} (ha : l.Attached) :
    Sys.wp R (rewrite snapshot) (RewriteResult R l snapshot) l := by
  unfold rewrite
  refine Sys.wp_get_bind ?_
  split
  · exact Sys.wp_throw (.unavailable ‹_›)
  rename_i hf
  rw [Bool.not_eq_true] at hf
  refine Sys.wp_lift_bind ?_ fun e he => .unencodable hf e he
  intro n hn
  obtain ⟨hl, rfl⟩ := size_ok_iff.mp hn
  split
  · exact Sys.wp_throw (.overCapacity hf hl ‹_›)
  rename_i fits
  rw [gt_iff_lt, not_lt] at fits
  refine wp_onFs_call_bind ?_ fun hR =>
    ⟨?_, .unpublished hf hl fits hR _ (by simp) _ (Fs.Keeps.refl _ _ _)⟩
  swap
  · rw [if_neg (by simp)]
    exact Sys.wp_throw (.unpublished hf hl fits hR _ (by simp) _ (Fs.Keeps.refl _ _ _))
  rw [if_pos rfl]
  refine Sys.wp_bind (Sys.wp_tryCatch ((wp_writeReplacement snapshot hl ha).mono ?_))
  rintro r _ (⟨rfl, rfl⟩ | ⟨hR, hne, fs, keeps, rfl⟩)
  · -- Published: `close` is ignored, so the exchange of descriptors always follows.
    have exchanged : Sys.wp R (Sys.tryCatch (onFs syncDirectory) (fun e => do
          Sys.modify fun l => { l with failed := true }
          Sys.throw e) >>= fun _ => mark (.rewritten snapshot))
        (RewriteResult R l snapshot) (l.afterPublish snapshot) := by
      refine Sys.wp_bind (Sys.wp_tryCatch (wp_onFs ((wp_syncDirectory _).mono ?_)))
      rintro r fs ⟨rfl, hr⟩
      cases r with
      | ok a => exact Sys.wp_modify (.rewritten hf hl fits)
      | throw e =>
        exact Sys.wp_modify_bind (Sys.wp_throw (.unsynced hf hl fits (hr.faulty (by simp)) e))
      | crash => exact .killed hf hl fits (hr.faulty (by simp)) _ (Or.inr rfl)
    exact wp_onFs_call_bind (Sys.wp_modify_bind exchanged) fun hR =>
      ⟨Sys.wp_modify_bind exchanged, .killed hf hl fits hR _ (Or.inl rfl)⟩
  · have quit : ∀ r fs', r ≠ Res.ok () → Fs.Keeps l.fs fs' l.filename l.fd →
        RewriteResult R l snapshot r { l with fs := fs' } :=
      fun r fs' hr k => .unpublished hf hl fits hR r hr fs' k
    cases r with
    | ok a => exact absurd rfl hne
    | crash => exact quit _ _ hne keeps
    | throw e =>
      refine wp_onFs_call_bind ?_ fun _ => ⟨?_, quit _ _ (by simp) keeps⟩ <;>
      exact wp_onFs_call_bind (Sys.wp_throw (quit _ _ hne (keeps_unlink keeps))) fun _ =>
        ⟨Sys.wp_throw (quit _ _ hne keeps), quit _ _ (by simp) keeps⟩

end AofLogger
end KVRPC.Aof
