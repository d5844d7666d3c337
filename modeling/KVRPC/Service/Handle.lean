import KVRPC.Service.Coherence

/-!
# One request at a time

`Handle` is `HandleBatch` on a batch of one, with a reply that closes the connection turned
into an exception. Nothing of the reply is lost by that: such replies carry nothing else.
-/
namespace KVRPC.Service

open Library Storage

variable {codec : Codec} {env : Env} {inputs : List Bytes} {o : Oracle} {s : CacheService}
  {replies : List Reply}

/-- `CacheService::Handle`. `HandleBatch` returns one reply for each input, so there is a
first one. -/
def handle (codec : Codec) (env : Env) (data : Bytes) : ServiceM (Bytes × Nat) := do
  let replies ← handleBatch codec env [data]
  let reply := replies.headD {}
  if reply.close then Sys.throw (runtimeError "Invalid request or unavailable storage")
  else pure (reply.bytes, reply.consumed)

/-- The reply to a request that was not carried out is the one it was decoded with. -/
theorem applyOne_close {now : Millis} {metrics : Option TransportStats} {disk : Aof.AofStats}
    {d : Decoded} {c : Cache} {reply : Reply}
    (h : (applyOne codec now metrics disk d c).1 = .ok reply) :
    reply.close = d.reply.close ∧ (d.reply.close = true → reply = d.reply) := by
  by_cases accepted : d.Accepted
  · obtain ⟨_, -, -, -, same⟩ := applyOne_answered h accepted
    exact ⟨same, fun closed => absurd closed (by simp [accepted.2])⟩
  · unfold applyOne at h
    rw [if_pos (Decoded.not_accepted_iff.mpr accepted)] at h
    cases h
    exact ⟨rfl, fun _ => rfl⟩

theorem applyAll_length {clock : Nat → Millis} {metrics : Option TransportStats}
    {disk : Aof.AofStats} {i : Nat} {ds : List Decoded} {c c' : Cache}
    (h : applyAll codec clock metrics disk i ds c = (.ok replies, c')) :
    replies.length = ds.length := by
  induction ds generalizing i c replies with
  | nil =>
    cases h
    rfl
  | cons d ds ih =>
    obtain ⟨reply, rest, c₁, -, tail, rfl⟩ := applyAll_cons_eq_ok.mp h
    rw [List.length_cons, ih tail, List.length_cons]

/-- Replies come from the loop over the requests, whatever happened before it. -/
theorem handleBatch_returned (returned : (handleBatch codec env inputs o s).1 = .ok replies) :
    ∃ disk c c', applied codec env disk (decodedBatch codec s.cache env inputs) c =
      (.ok replies, c') := by
  rw [handleBatch_eq] at returned
  split at returned
  · cases returned
  unfold Sys.tryCatch at returned
  generalize ran : commitBatch codec env (decodedBatch codec s.cache env inputs) o s = stop
    at returned
  obtain ⟨replies' | e | _, o', s'⟩ := stop
  · cases returned
    have last : ∃ (o' : Oracle) (s' : CacheService),
        (applyBatch codec env (decodedBatch codec s.cache env inputs) o' s').1 = .ok replies := by
      obtain ⟨_, _, _, got⟩ := Sys.bind_returns (congrArg Prod.fst ran)
      obtain ⟨full, _, _, lifted⟩ := Sys.bind_returns got
      cases full with
      | true =>
        obtain ⟨_, _, _, compacted⟩ := Sys.bind_returns lifted
        obtain ⟨_, o', s', logged⟩ := Sys.bind_returns compacted
        exact ⟨o', s', logged⟩
      | false =>
        obtain ⟨_, o', s', logged⟩ := Sys.bind_returns lifted
        exact ⟨o', s', logged⟩
    obtain ⟨o', s', applying⟩ := last
    refine ⟨s'.aof.stats, s'.cache, ?_⟩
    unfold applyBatch at applying
    unfold applied
    generalize applyAll codec env.applyClock env.metrics s'.aof.stats 0
      (decodedBatch codec s.cache env inputs) s'.cache = out at applying ⊢
    obtain ⟨e | replies', c'⟩ := out
    · cases applying
    · cases applying
      exact ⟨c', rfl⟩
  · unfold rethrow at returned
    dsimp only at returned
    split at returned <;> cases returned
  · cases returned

/-- One reply for each input, and nothing but the request to close in one that closes. -/
theorem handleBatch_replies (returned : (handleBatch codec env inputs o s).1 = .ok replies) :
    replies.length = inputs.length ∧
      ∀ reply ∈ replies, reply.close = true → reply = { close := true } := by
  obtain ⟨disk, c, c', ran⟩ := handleBatch_returned returned
  have length := applyAll_length ran
  refine ⟨by rw [length, decodedBatch_eq_mapIdx, List.length_mapIdx], ?_⟩
  intro reply mem closed
  obtain ⟨j, inside, rfl⟩ := List.mem_iff_getElem.mp mem
  have hd : (decodedBatch codec s.cache env inputs)[j]? =
      some ((decodedBatch codec s.cache env inputs)[j]) :=
    List.getElem?_eq_getElem (length ▸ inside)
  obtain ⟨reply', _, _, found, -, made⟩ := applyAll_reply ran hd
  rw [List.getElem?_eq_getElem inside] at found
  cases found
  obtain ⟨same, untouched⟩ := applyOne_close made
  rw [untouched (same ▸ closed)]
  obtain ⟨_, _, _, decoded⟩ :=
    (decodedBatch_from s.cache env inputs).each (List.getElem_mem (length ▸ inside))
  rw [same] at closed
  generalize (decodedBatch codec s.cache env inputs)[j] = d at decoded closed ⊢
  cases decoded with
  | rejected => rfl
  | incomplete | read | set | setTtl | del => cases closed

/-- What `Handle` does in terms of `HandleBatch`. -/
theorem handle_eq (data : Bytes) :
    (handle codec env data o s).2 = (handleBatch codec env [data] o s).2 ∧
      (handle codec env data o s).1 =
        match (handleBatch codec env [data] o s).1 with
        | .ok replies =>
          if (replies.headD {}).close then
            .throw (runtimeError "Invalid request or unavailable storage")
          else .ok ((replies.headD {}).bytes, (replies.headD {}).consumed)
        | .throw e => .throw e
        | .crash => .crash := by
  change (Sys.bind (handleBatch codec env [data]) _ o s).2 = _ ∧
    (Sys.bind (handleBatch codec env [data]) _ o s).1 = _
  unfold Sys.bind
  generalize handleBatch codec env [data] o s = stop
  obtain ⟨replies | e | _, o', s'⟩ := stop
  · dsimp only
    split <;> exact ⟨rfl, rfl⟩
  · exact ⟨rfl, rfl⟩
  · exact ⟨rfl, rfl⟩

end KVRPC.Service
