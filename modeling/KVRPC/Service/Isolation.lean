import KVRPC.Service.Runs

/-!
# Rejected requests leave no trace

An input that is incomplete or that is answered by closing the connection contributes nothing
to the mutations of its batch, and the loop after the batch is logged passes over it. A batch
with such inputs and the batch without them make the same system calls, so they end alike
under every oracle, also when one of the calls fails.
-/
namespace KVRPC.Service

open Library Aof Storage

variable {codec : Codec} {now : Millis}

/-- The answer to a complete request that was not rejected. -/
def Reply.Served (reply : Reply) : Prop := reply.consumed ≠ 0 ∧ reply.close = false

instance (reply : Reply) : Decidable reply.Served := inferInstanceAs (Decidable (_ ∧ _))

/-- The inputs that are neither incomplete nor rejected. -/
def servedInputs (codec : Codec) (cache : Cache) (now : Millis) (inputs : List Bytes) :
    List Bytes :=
  inputs.filter fun data => (decodedInput codec cache now data).Accepted

/-! ## Decoding -/

theorem DecodedAs.mutation_eq_none {cache : Cache} {data : Bytes} {d : Decoded}
    (h : DecodedAs codec cache now data d) (dropped : ¬ d.Accepted) : d.mutation = none := by
  cases h with
  | incomplete | rejected | read => rfl
  | set _ _ _ ht | setTtl _ _ _ ht | del _ _ ht => exact absurd ⟨ht.ne', rfl⟩ dropped

theorem mutations_filter {ds : List Decoded}
    (silent : ∀ d ∈ ds, ¬ d.Accepted → d.mutation = none) :
    mutations (ds.filter Decoded.Accepted) = mutations ds := by
  induction ds with
  | nil => rfl
  | cons d ds ih =>
    have rest := ih fun x hx => silent x (List.mem_cons_of_mem d hx)
    by_cases taken : d.Accepted
    · rw [List.filter_cons_of_pos (by simpa using taken), mutations_cons, rest, ← mutations_cons]
    · rw [List.filter_cons_of_neg (by simpa using taken), rest, mutations_cons]
      simp [mutations, silent d List.mem_cons_self taken]

/-! ## Applying -/

theorem applyOne_dropped {d : Decoded} (dropped : ¬ d.Accepted) (metrics : Option TransportStats)
    (disk : AofStats) (c : Cache) : applyOne codec now metrics disk d c = (.ok d.reply, c) :=
  if_pos (Decoded.not_accepted_iff.mpr dropped)

/-- A reply keeps what decoding has found out about the input. -/
def Decoded.AnsweredBy (d : Decoded) (reply : Reply) : Prop :=
  reply.consumed = d.reply.consumed ∧ reply.close = d.reply.close

theorem Decoded.AnsweredBy.served_iff {d : Decoded} {reply : Reply} (h : d.AnsweredBy reply) :
    reply.Served ↔ d.Accepted := by
  rw [Reply.Served, h.1, h.2]
  rfl

theorem applyOne_answeredBy {metrics : Option TransportStats} {disk : AofStats} {d : Decoded}
    {c c' : Cache} {reply : Reply}
    (h : applyOne codec now metrics disk d c = (.ok reply, c')) : d.AnsweredBy reply := by
  unfold applyOne at h
  split at h
  · cases h
    exact ⟨rfl, rfl⟩
  · split at h
    · cases h
    · split at h
      · cases h
      · cases h
        exact ⟨rfl, rfl⟩

variable {clock : Nat → Millis} {metrics : Option TransportStats} {disk : AofStats}

theorem applyAll_filter (stopped : ∀ i, clock i = now) (i j : Nat) (ds : List Decoded)
    (c : Cache) :
    applyAll codec clock metrics disk j (ds.filter Decoded.Accepted) c =
      ((applyAll codec clock metrics disk i ds c).1.map (List.filter Reply.Served),
        (applyAll codec clock metrics disk i ds c).2) := by
  induction ds generalizing i j c with
  | nil => rfl
  | cons d ds ih =>
    by_cases taken : d.Accepted
    · rw [List.filter_cons_of_pos (by simpa using taken), applyAll, applyAll, stopped, stopped]
      cases one : applyOne codec now metrics disk d c with
      | mk first c₁ =>
        cases first with
        | error e => rfl
        | ok reply =>
          have kept : reply.Served := (applyOne_answeredBy one).served_iff.mpr taken
          simp only [ih (i + 1) (j + 1) c₁]
          rcases applyAll codec clock metrics disk (i + 1) ds c₁ with ⟨_ | replies, c₂⟩
          · rfl
          · simp [Except.map, kept]
    · rw [List.filter_cons_of_neg (by simpa using taken), applyAll, applyOne_dropped taken]
      have dropped : ¬ d.reply.Served := taken
      simp only [ih (i + 1) j c]
      rcases applyAll codec clock metrics disk (i + 1) ds c with ⟨_ | replies, c₂⟩
      · rfl
      · simp [Except.map, dropped]

/-- Every input gets a reply, and it tells whether the input was served. -/
theorem applyAll_answeredBy {i : Nat} {ds : List Decoded} {c c' : Cache} {replies : List Reply}
    (h : applyAll codec clock metrics disk i ds c = (.ok replies, c')) :
    List.Forall₂ Decoded.AnsweredBy ds replies := by
  induction ds generalizing i c replies with
  | nil =>
    cases h
    exact .nil
  | cons d ds ih =>
    obtain ⟨reply, rest, c₁, one, tail, rfl⟩ := applyAll_cons_eq_ok.mp h
    exact .cons (applyOne_answeredBy one) (ih tail)

/-! ## Batches -/

variable {env : Env}

theorem applyBatch_filter (frozen : env.Frozen now) (ds : List Decoded) :
    applyBatch codec env (ds.filter Decoded.Accepted) =
      (applyBatch codec env ds).map (List.filter Reply.Served) := by
  funext o s
  simp only [applyBatch, Sys.map, applyAll_filter frozen.apply 0 0 ds]
  rcases applyAll codec env.applyClock env.metrics s.aof.stats 0 ds s.cache with ⟨_ | _, _⟩ <;> rfl

theorem commitBatch_filter (frozen : env.Frozen now) {ds : List Decoded}
    (silent : ∀ d ∈ ds, ¬ d.Accepted → d.mutation = none) :
    commitBatch codec env (ds.filter Decoded.Accepted) =
      (commitBatch codec env ds).map (List.filter Reply.Served) := by
  simp only [commitBatch, mutations_filter silent, applyBatch_filter frozen]
  simp only [← Sys.bind_map]
  congr 1
  funext s
  congr 1
  funext full
  cases full <;> simp only [Bool.false_eq_true, if_false, if_true, Sys.bind_map]

theorem rethrow_eq_map (f : List Reply → List Reply) (e : Exception) :
    rethrow e = (rethrow e).map f := by
  unfold rethrow
  split <;> rfl

theorem handleBatch_served (frozen : env.Frozen now) (inputs : List Bytes) (o : Oracle)
    (s : CacheService) :
    handleBatch codec env (servedInputs codec s.cache now inputs) o s =
      ((handleBatch codec env inputs o s).1.map (List.filter Reply.Served),
        (handleBatch codec env inputs o s).2) := by
  have silent : ∀ d ∈ inputs.map (decodedInput codec s.cache now), ¬ d.Accepted →
      d.mutation = none := by
    intro d hd
    obtain ⟨data, _, rfl⟩ := List.mem_map.mp hd
    exact (decodedInput_as codec s.cache now data).mutation_eq_none
  have decoded : decodedBatch codec s.cache env (servedInputs codec s.cache now inputs) =
      (decodedBatch codec s.cache env inputs).filter Decoded.Accepted := by
    rw [decodedBatch_frozen frozen, decodedBatch_frozen frozen, List.filter_map]
    rfl
  rw [handleBatch_eq, handleBatch_eq, decoded,
    commitBatch_filter frozen (decodedBatch_frozen frozen inputs ▸ silent),
    Sys.tryCatch_map _ _ (rethrow_eq_map _)]
  split <;> rfl

theorem commitBatch_returns {ds : List Decoded} {o : Oracle} {s : CacheService}
    {replies : List Reply} (h : (commitBatch codec env ds o s).1 = .ok replies) :
    List.Forall₂ Decoded.AnsweredBy ds replies := by
  obtain ⟨_, _, _, h⟩ := Sys.bind_returns h
  obtain ⟨full, _, _, h⟩ := Sys.bind_returns h
  have applied : ∃ o' s', (applyBatch codec env ds o' s').1 = .ok replies := by
    cases full with
    | false =>
      obtain ⟨_, o', s', h⟩ := Sys.bind_returns h
      exact ⟨o', s', h⟩
    | true =>
      obtain ⟨_, _, _, h⟩ := Sys.bind_returns h
      obtain ⟨_, o', s', h⟩ := Sys.bind_returns h
      exact ⟨o', s', h⟩
  obtain ⟨o', s', h⟩ := applied
  unfold applyBatch at h
  rcases happlied : applyAll codec env.applyClock env.metrics s'.aof.stats 0 ds s'.cache with
    ⟨_ | _, c⟩
  · rw [happlied] at h
    cases h
  · rw [happlied] at h
    cases h
    exact applyAll_answeredBy happlied

/-- An answered batch was committed. -/
theorem committed_of_answered {inputs : List Bytes} {o : Oracle} {s : CacheService}
    {replies : List Reply} (h : (handleBatch codec env inputs o s).1 = .ok replies) :
    (commitBatch codec env (decodedBatch codec s.cache env inputs) o s).1 = .ok replies := by
  rw [handleBatch_eq] at h
  split at h
  · cases h
  · unfold Sys.tryCatch at h
    generalize commitBatch codec env (decodedBatch codec s.cache env inputs) o s = stop at h ⊢
    obtain ⟨_ | e | _, o', s'⟩ := stop
    · exact h
    · unfold rethrow at h
      dsimp only at h
      split at h <;> cases h
    · cases h

/-- **Isolation.** In any state and under any oracle, with a clock that stands still: dropping
the inputs that are incomplete or rejected changes neither the replies to the others nor the
exception, the cache, the log or anything else of the service. -/
theorem rejected_leave_no_trace (frozen : env.Frozen now) (s : CacheService)
    (inputs : List Bytes) (o : Oracle) :
    let whole := handleBatch codec env inputs o s
    let trimmed := handleBatch codec env (servedInputs codec s.cache now inputs) o s
    trimmed.2 = whole.2 ∧ trimmed.1 = whole.1.map (List.filter Reply.Served) ∧
      ∀ replies, whole.1 = .ok replies → List.Forall₂ (fun data reply =>
        Reply.Served reply ↔ (decodedInput codec s.cache now data).Accepted) inputs replies := by
  dsimp only
  rw [handleBatch_served frozen]
  refine ⟨rfl, rfl, fun replies answered => ?_⟩
  have served := (commitBatch_returns (committed_of_answered answered)).imp
    fun _ _ => Decoded.AnsweredBy.served_iff
  rw [decodedBatch_frozen frozen, List.forall₂_map_left_iff] at served
  exact served

/-- A write between a frame with a wrong magic number and the beginning of a frame. -/
theorem rejected_leave_no_trace_garbage : ∃ s₀ replies,
    (create wireCodec small frozen.applyClock AofLogger.emptyFs [] .reliable).1 = .ok s₀ ∧
      let inputs := [List.replicate 12 0, Message.frame .set [1] [2], [202, 254]]
      servedInputs wireCodec s₀.cache (frozen.applyClock 0) inputs =
        [Message.frame .set [1] [2]] ∧
      (handleBatch wireCodec frozen inputs .reliable s₀).1 = .ok replies ∧
      replies.map Reply.close = [true, false, false] ∧
      (handleBatch wireCodec frozen [Message.frame .set [1] [2]] .reliable s₀).1 =
        .ok (replies.filter Reply.Served) ∧
      (handleBatch wireCodec frozen [Message.frame .set [1] [2]] .reliable s₀).2 =
        (handleBatch wireCodec frozen inputs .reliable s₀).2 := by
  obtain ⟨s₀, created, served, answered⟩ := Res.returns_iff.mp (show
    (create wireCodec small frozen.applyClock AofLogger.emptyFs [] .reliable).1.Returns fun s₀ =>
      let inputs := [List.replicate 12 0, Message.frame .set [1] [2], [202, 254]]
      servedInputs wireCodec s₀.cache (frozen.applyClock 0) inputs =
        [Message.frame .set [1] [2]] ∧
      (handleBatch wireCodec frozen inputs .reliable s₀).1.Returns fun replies =>
        replies.map Reply.close = [true, false, false] by decide +kernel)
  obtain ⟨replies, answered, closed⟩ := Res.returns_iff.mp answered
  obtain ⟨same, result, _⟩ := @rejected_leave_no_trace wireCodec _ _ frozen_frozen s₀
    [List.replicate 12 0, Message.frame .set [1] [2], [202, 254]] .reliable
  rw [served] at same result
  rw [answered] at result
  exact ⟨s₀, replies, created, served, answered, closed, result, same⟩

end KVRPC.Service
