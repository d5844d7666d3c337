import KVRPC.Service.Spec

/-!
# Operations

Requests that change the cache and the records of the log mean the same thing: an
operation `Op` on the cache. `Evolves` says what one request does to the cache, and
`Replays` what a list of operations does when the log is read back.
-/
namespace KVRPC.Service

open Library Aof Storage

variable {codec : Codec}

inductive Op where
  | put (key value : Bytes) (expires : UInt64)
  | remove (key : Bytes)
  deriving DecidableEq, Repr

def Op.key : Op → Bytes
  | .put key _ _ => key
  | .remove key => key

def Op.apply (now : Millis) : Op → Cache → Except Exception Cache
  | .put key value expires, c => c.put key value expires now.value
  | .remove key, c => .ok (c.remove key).2

/-- The operation that stores an entry. -/
def storing (e : Entry Bytes Bytes) : Op := .put e.key e.value e.expires

def Request.op? (request : Request) : Option Op :=
  match request.command with
  | .set | .setTtl => some (.put request.key request.value request.expires)
  | .del => some (.remove request.key)
  | _ => none

/-- The request is complete and was not rejected. -/
def Decoded.Accepted (d : Decoded) : Prop := d.reply.consumed ≠ 0 ∧ d.reply.close = false

instance (d : Decoded) : Decidable d.Accepted := inferInstanceAs (Decidable (_ ∧ _))

def Decoded.op? (d : Decoded) : Option Op := if d.Accepted then d.request.op? else none

/-- What the replay callback makes of a record. -/
def mutationOp? (codec : Codec) (m : Mutation) : Option Op :=
  match m.command with
  | .set => some (.put m.key m.value 0)
  | .setTtl =>
    match codec.parse m.value with
    | none => none
    | some item =>
      if item.expiresUnixMs = 0 then none else some (.put m.key item.value item.expiresUnixMs)
  | _ => some (.remove m.key)

def batchOps (ds : List Decoded) : List Op := ds.filterMap Decoded.op?

def logOps (codec : Codec) (ms : List Mutation) : List Op := ms.filterMap (mutationOp? codec)

@[simp] theorem batchOps_cons (d : Decoded) (ds : List Decoded) :
    batchOps (d :: ds) = d.op?.toList ++ batchOps ds := by
  rw [batchOps, List.filterMap_cons]
  cases d.op? <;> rfl

@[simp] theorem logOps_append (xs ys : List Mutation) :
    logOps codec (xs ++ ys) = logOps codec xs ++ logOps codec ys := List.filterMap_append

/-! ## Records and requests -/

/-- The expiry of an accepted request neither wraps nor stands for none. -/
theorem expires_ne_zero (now : Millis) {ttl : UInt64} (positive : ttl ≠ 0)
    (bounded : ttl ≤ maxTtlMs) : now.value + ttl ≠ 0 := by
  have h₁ := now.value_le
  have h₂ : ttl.toNat ≤ 315360000000 := UInt64.le_iff_toNat_le.mp bounded
  have h₃ : ttl.toNat ≠ 0 := fun h => positive (UInt64.toNat_inj.mp h)
  intro h
  have sum := congrArg UInt64.toNat h
  rw [UInt64.toNat_add] at sum
  simp at sum
  omega

theorem length_lt_of_loggable {m : Mutation} (h : Loggable m) : m.value.length < 2 ^ 31 := by
  have := h.2.2.2
  unfold maxWireValueSize maxValueSize at this
  omega

/-- The record logged for a request and the request mean the same. -/
theorem DecodedAs.mutationOp_eq (lawful : codec.Lawful) {cache : Cache} {now : Millis}
    {data : Bytes} {d : Decoded} (h : DecodedAs codec cache now data d)
    (loggable : ∀ m, d.mutation = some m → Loggable m) :
    d.mutation.bind (mutationOp? codec) = d.op? := by
  cases h with
  | incomplete => rfl
  | rejected => rfl
  | read command key total ht hc hk =>
    have accepted : total ≠ 0 := by omega
    rcases hc with rfl | rfl | rfl <;> simp [Decoded.op?, Decoded.Accepted, Request.op?]
  | set key value total ht =>
    have accepted : total ≠ 0 := by omega
    simp [Decoded.op?, Decoded.Accepted, Request.op?, mutationOp?, accepted]
  | setTtl key item total ht hk command parsed positive bounded =>
    have accepted : total ≠ 0 := by omega
    have read := lawful.parse_serialize (datedItem item now)
      (length_lt_of_loggable (loggable _ rfl))
    have dated := expires_ne_zero now positive bounded
    simp only [Option.bind_some, mutationOp?, read]
    simp [Decoded.op?, Decoded.Accepted, Request.op?, accepted, datedItem, dated]
  | del key total ht =>
    have accepted : total ≠ 0 := by omega
    simp [Decoded.op?, Decoded.Accepted, Request.op?, mutationOp?, accepted]

/-- An accepted write is within the limits on requests and could be stored. -/
theorem DecodedAs.op_cases {cache : Cache} {now : Millis} {data : Bytes} {d : Decoded} {op : Op}
    (h : DecodedAs codec cache now data d) (hop : d.op? = some op) :
    (∃ key value expires, op = .put key value expires ∧ key.length ≤ maxKeySize ∧
      value.length ≤ maxValueSize ∧ cache.CanStore key value) ∨ ∃ key, op = .remove key := by
  cases h with
  | incomplete => cases hop
  | rejected => cases hop
  | read command key total ht hc hk =>
    rcases hc with rfl | rfl | rfl <;> simp [Decoded.op?, Request.op?] at hop
  | set key value total ht hk hv hs =>
    obtain ⟨_, rfl⟩ : _ ∧ Op.put key value 0 = op := by simpa [Decoded.op?, Request.op?] using hop
    exact Or.inl ⟨key, value, 0, rfl, hk, hv, hs⟩
  | setTtl key item total ht hk _ _ _ _ hv hs =>
    obtain ⟨_, rfl⟩ : _ ∧ Op.put key item.value (now.value + item.ttlMs) = op := by
      simpa [Decoded.op?, Request.op?] using hop
    exact Or.inl ⟨key, item.value, _, rfl, hk, hv, hs⟩
  | del key total ht hk =>
    obtain ⟨_, rfl⟩ : _ ∧ Op.remove key = op := by simpa [Decoded.op?, Request.op?] using hop
    exact Or.inr ⟨key, rfl⟩

theorem mem_batchOps {cache : Cache} {env : Env} {inputs : List Bytes} {op : Op}
    (hop : op ∈ batchOps (decodedBatch codec cache env inputs)) :
    (∃ key value expires, op = .put key value expires ∧ key.length ≤ maxKeySize ∧
      value.length ≤ maxValueSize ∧ cache.CanStore key value) ∨ ∃ key, op = .remove key := by
  obtain ⟨d, hd, hop⟩ := List.mem_filterMap.mp hop
  obtain ⟨_, _, _, decoded⟩ := (decodedBatch_from cache env inputs).each hd
  exact decoded.op_cases hop

theorem logOps_mutations (lawful : codec.Lawful) {cache : Cache} {clock : Nat → Millis} {i : Nat}
    {inputs : List Bytes} {ds : List Decoded} (h : DecodedFrom codec cache clock i inputs ds)
    (loggable : ∀ m ∈ mutations ds, Loggable m) : logOps codec (mutations ds) = batchOps ds := by
  induction h with
  | nil => rfl
  | @cons _ _ _ d ds head _ ih =>
    have first := head.mutationOp_eq lawful fun m hm =>
      loggable m (List.mem_filterMap.mpr ⟨d, by simp, hm⟩)
    have rest := ih fun m hm => loggable m (by
      obtain ⟨x, hx, hm⟩ := List.mem_filterMap.mp hm
      exact List.mem_filterMap.mpr ⟨x, by simp [hx], hm⟩)
    rw [batchOps_cons, ← rest, ← first, mutations, List.filterMap_cons]
    cases d.mutation with
    | none => rfl
    | some m =>
      rw [logOps, List.filterMap_cons, Option.bind_some]
      cases mutationOp? codec m <;> rfl

/-- The record of a snapshot stores the entry it was made from. -/
theorem mutationOp_snapshot (lawful : codec.Lawful) {e : Entry Bytes Bytes}
    (loggable : Loggable (snapshotMutation codec e)) :
    mutationOp? codec (snapshotMutation codec e) = some (storing e) := by
  have short := length_lt_of_loggable loggable
  unfold snapshotMutation at short ⊢
  split
  · rename_i dated
    rw [if_pos dated] at short
    simp [mutationOp?, lawful.parse_serialize _ short, dated, storing]
  · rename_i undated
    simp only [ne_eq, not_not] at undated
    simp [mutationOp?, storing, undated]

theorem logOps_snapshot (lawful : codec.Lawful) {es : List (Entry Bytes Bytes)}
    (loggable : ∀ m ∈ es.map (snapshotMutation codec), Loggable m) :
    logOps codec (es.map (snapshotMutation codec)) = es.map storing := by
  induction es with
  | nil => rfl
  | cons e es ih =>
    rw [List.map_cons, logOps, List.filterMap_cons,
      mutationOp_snapshot lawful (loggable _ (by simp))]
    exact congrArg _ (ih fun m hm => loggable m (by simp [hm]))

/-! ## Effects on the cache -/

/-- What one request can do to the cache: an operation, a lookup or nothing. -/
inductive Evolves (c : Cache) : Option Op → Cache → Prop where
  | op {op : Op} {c' : Cache} (now : Millis) (h : op.apply now c = .ok c') :
      Evolves c (some op) c'
  | get (key : Bytes) (now : Millis) : Evolves c none (c.get key now.value).2
  | same : Evolves c none c

theorem Op.layout_apply {op : Op} {now : Millis} {c c' : Cache} (h : op.apply now c = .ok c') :
    c'.layout = c.layout := by
  cases op with
  | put key value expires => exact ShardedCache.layout_put h
  | remove key =>
    cases h
    exact ShardedCache.layout_remove key

theorem Evolves.layout {c c' : Cache} {op : Option Op} (h : Evolves c op c') :
    c'.layout = c.layout := by
  cases h with
  | op now h => exact Op.layout_apply h
  | get key now => exact ShardedCache.layout_get key now.value
  | same => rfl

theorem execute_evolves (codec : Codec) (now : Millis) (metrics : Option TransportStats)
    (disk : AofStats) (request : Request) (c : Cache) :
    Evolves c request.op? (execute codec now metrics disk request c).2 ∨
      (∃ e, (execute codec now metrics disk request c).1 = .error e) ∧
        (execute codec now metrics disk request c).2 = c := by
  obtain ⟨command, key, value, expires⟩ := request
  cases command with
  | set | setTtl =>
    cases hp : c.put key value expires now.value with
    | ok c' =>
      left
      simp only [execute, hp, Request.op?]
      exact .op now hp
    | error e =>
      right
      simp [execute, hp]
  | del => exact Or.inl (.op now rfl)
  | get | lookup => exact Or.inl (.get key now)
  | stats | unknown => exact Or.inl .same

theorem Decoded.not_accepted_iff {d : Decoded} :
    d.reply.consumed = 0 ∨ d.reply.close = true ↔ ¬ d.Accepted := by
  rw [Decoded.Accepted, not_and_or, not_not, Bool.not_eq_false]

/-- A request that fails may have had its effect on the cache or not. -/
theorem applyOne_evolves (codec : Codec) (now : Millis) (metrics : Option TransportStats)
    (disk : AofStats) (d : Decoded) (c : Cache) :
    Evolves c d.op? (applyOne codec now metrics disk d c).2 ∨
      (∃ e, (applyOne codec now metrics disk d c).1 = .error e) ∧
        (applyOne codec now metrics disk d c).2 = c := by
  unfold applyOne Decoded.op?
  by_cases taken : d.Accepted
  · rw [if_pos taken, if_neg (by rwa [Decoded.not_accepted_iff, not_not])]
    have evolves := execute_evolves codec now metrics disk d.request c
    generalize execute codec now metrics disk d.request c = out at evolves ⊢
    obtain ⟨_ | response, c'⟩ := out
    · exact evolves.imp id fun same => ⟨⟨_, rfl⟩, same.2⟩
    · have evolves : Evolves c d.request.op? c' := by
        rcases evolves with evolves | ⟨⟨e, he⟩, _⟩
        · exact evolves
        · cases he
      dsimp only
      cases Message.encode d.request.command d.request.key response with
      | error e => exact Or.inl evolves
      | ok bytes => exact Or.inl evolves
  · rw [if_neg taken, if_pos (Decoded.not_accepted_iff.mpr taken)]
    exact Or.inl .same

/-- An entry in the cache was stored by the last operation or was there before. -/
theorem Evolves.holds {c c' : Cache} {op : Option Op} (h : Evolves c op c')
    {e : Entry Bytes Bytes} (he : c'.Holds e) :
    op = some (storing e) ∨ c.Holds e ∧ ∀ o, op = some o → o.key ≠ e.key := by
  cases h with
  | @op op _ now h =>
    cases op with
    | put key value expires =>
      rcases ShardedCache.holds_put h he with rfl | ⟨old, hk⟩
      · exact Or.inl rfl
      · refine Or.inr ⟨old, ?_⟩
        rintro _ ⟨⟩
        exact hk.symm
    | remove key =>
      cases h
      obtain ⟨old, hk⟩ := ShardedCache.holds_remove he
      refine Or.inr ⟨old, ?_⟩
      rintro _ ⟨⟩
      exact hk.symm
  | get key now => exact Or.inr ⟨ShardedCache.holds_get he, by simp⟩
  | same => exact Or.inr ⟨he, by simp⟩

/-- The loop performs the operations of the batch in order. An exception may end it early. -/
theorem applyAll_evolves (codec : Codec) (P : List Op → Cache → Prop)
    (next : ∀ {ops c op c'}, P ops c → Evolves c op c' → P (ops ++ op.toList) c')
    (clock : Nat → Millis) (metrics : Option TransportStats) (disk : AofStats) (i : Nat)
    (ds : List Decoded) (ops : List Op) {c : Cache} (h : P ops c) :
    ∃ done, done <+: batchOps ds ∧ P (ops ++ done) (applyAll codec clock metrics disk i ds c).2 ∧
      ((∃ replies, (applyAll codec clock metrics disk i ds c).1 = .ok replies) →
        done = batchOps ds) := by
  induction ds generalizing i ops c with
  | nil => exact ⟨[], List.prefix_rfl, by rw [List.append_nil]; exact h, fun _ => rfl⟩
  | cons d ds ih =>
    have one := applyOne_evolves codec (clock i) metrics disk d c
    unfold applyAll
    generalize applyOne codec (clock i) metrics disk d c = out at one ⊢
    obtain ⟨e | reply, c'⟩ := out
    · rcases one with evolves | ⟨_, same⟩
      · exact ⟨d.op?.toList, by simp, next h evolves, by simp⟩
      · dsimp only at same
        exact ⟨[], List.nil_prefix, by simpa [same] using h, by simp⟩
    · have evolves : Evolves c d.op? c' := by
        rcases one with evolves | ⟨⟨e, he⟩, _⟩
        · exact evolves
        · cases he
      obtain ⟨done, before, reached, complete⟩ := ih (i + 1) _ (next h evolves)
      dsimp only
      generalize applyAll codec clock metrics disk (i + 1) ds c' = rest at reached complete ⊢
      rw [List.append_assoc] at reached
      obtain ⟨e | replies, c''⟩ := rest
      · exact ⟨_, by simpa using before, reached, by simp⟩
      · exact ⟨_, by simpa using before, reached, fun _ => by rw [complete ⟨replies, rfl⟩]; simp⟩

/-- The loop returns when its first round and the rest of it do. -/
theorem applyAll_cons_eq_ok {clock : Nat → Millis} {metrics : Option TransportStats}
    {disk : AofStats} {i : Nat} {d : Decoded} {ds : List Decoded} {c c' : Cache}
    {replies : List Reply} :
    applyAll codec clock metrics disk i (d :: ds) c = (.ok replies, c') ↔
      ∃ reply rest c₁, applyOne codec (clock i) metrics disk d c = (.ok reply, c₁) ∧
        applyAll codec clock metrics disk (i + 1) ds c₁ = (.ok rest, c') ∧
        replies = reply :: rest := by
  rw [applyAll]
  constructor
  · intro h
    rcases ho : applyOne codec (clock i) metrics disk d c with ⟨_ | reply, c₁⟩
    · rw [ho] at h
      cases h
    · rw [ho] at h
      dsimp only at h
      rcases hr : applyAll codec clock metrics disk (i + 1) ds c₁ with ⟨_ | rest, c₂⟩
      · rw [hr] at h
        cases h
      · rw [hr] at h
        cases h
        exact ⟨reply, rest, c₁, rfl, hr, rfl⟩
  · rintro ⟨reply, rest, c₁, one, tail, rfl⟩
    rw [one]
    dsimp only
    rw [tail]

theorem layout_applyAll (clock : Nat → Millis) (metrics : Option TransportStats) (disk : AofStats)
    (i : Nat) (ds : List Decoded) (c : Cache) :
    (applyAll codec clock metrics disk i ds c).2.layout = c.layout := by
  obtain ⟨_, _, same, _⟩ := applyAll_evolves codec (fun _ c' => c'.layout = c.layout)
    (fun h evolves => evolves.layout.trans h) clock metrics disk i ds [] rfl
  exact same

/-! ## Replay -/

/-- The operations applied in order, the clock read once for each. -/
inductive Replays (clock : Nat → Millis) : Nat → List Op → Cache → Cache → Prop where
  | nil (n : Nat) (c : Cache) : Replays clock n [] c c
  | cons {n : Nat} {op : Op} {ops : List Op} {c c' c'' : Cache}
      (head : op.apply (clock n) c = .ok c') (tail : Replays clock (n + 1) ops c' c'') :
      Replays clock n (op :: ops) c c''

theorem Replays.layout {clock : Nat → Millis} {n : Nat} {ops : List Op} {c c' : Cache}
    (h : Replays clock n ops c c') : c'.layout = c.layout := by
  induction h with
  | nil => rfl
  | cons head _ ih => exact ih.trans (Op.layout_apply head)

/-- The callback applies the operation of the record, if it has one. -/
theorem replayCallback_eq (clock : Nat → Millis) (m : Mutation) (c : Cache) (n : Nat) :
    replayCallback codec clock m (c, n) =
      match mutationOp? codec m with
      | none => (.error (runtimeError "Invalid TTL log record"), (c, n + 1))
      | some op =>
        match op.apply (clock n) c with
        | .ok c' => (.ok (), (c', n + 1))
        | .error e => (.error e, (c, n + 1)) := by
  unfold replayCallback mutationOp?
  cases m.command with
  | set | del | get | stats | lookup | unknown => rfl
  | setTtl =>
    dsimp only
    cases codec.parse m.value with
    | none => rfl
    | some item =>
      dsimp only
      split <;> rfl

theorem deliver_ok_iff (clock : Nat → Millis) (ms : List Mutation) (c c' : Cache) (n : Nat) :
    (∃ n', deliver (replayCallback codec clock) ms (c, n) = (.ok (), (c', n'))) ↔
      (∀ m ∈ ms, (mutationOp? codec m).isSome) ∧ Replays clock n (logOps codec ms) c c' := by
  induction ms generalizing c n with
  | nil =>
    constructor
    · rintro ⟨_, h⟩
      cases h
      exact ⟨by simp, .nil n _⟩
    · rintro ⟨_, h⟩
      cases h
      exact ⟨n, rfl⟩
  | cons m ms ih =>
    rw [deliver, replayCallback_eq, logOps, List.filterMap_cons]
    cases hm : mutationOp? codec m with
    | none => simp [hm]
    | some op =>
      simp only [List.forall_mem_cons, hm, Option.isSome_some, true_and]
      cases ha : op.apply (clock n) c with
      | error e =>
        refine ⟨by simp, ?_⟩
        rintro ⟨_, h⟩
        cases h with
        | cons head _ => rw [ha] at head; cases head
      | ok c₁ =>
        refine (ih c₁ (n + 1)).trans (and_congr_right fun _ => ?_)
        constructor
        · exact .cons ha
        · intro h
          cases h with
          | cons head tail =>
            cases ha.symm.trans head
            exact tail

end KVRPC.Service
