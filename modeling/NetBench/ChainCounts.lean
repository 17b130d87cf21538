/-
# `NetBench.ChainCounts` — how often each message arrives

The conservation laws of `NetBench.ChainComplete` with the sends of `NetBench.Retries` at
their beginning.  Where no two clients share a user id, the upstream has for message `j` of a
client

    at most   the short and failed sends of later messages of its round
              + 1 if the client is past message j

records, and that many where both receivers have read all and the server has relayed
all (`counted_of_run`).
-/
import NetBench.ChainComplete

namespace NetBench

open Lib

/-! ## The full writes of one client -/

theorem writtenKeys_append (l l' : List Ev) :
    writtenKeys (l ++ l') = writtenKeys l ++ writtenKeys l' := by
  rw [writtenKeys, List.filterMap_append, List.map_append]
  rfl

namespace TcpClient

variable {a : NbSysArgs} {T : Bytes} {log : List Ev} {p j : Nat}

/-- Where only messages of the table are written, a message has been written in full as often
as a send with its sequence was accepted. -/
theorem count_writtenKeys (ha : a.Fits) (hT : a.Prepared T) (hj : j < a.total)
    (h : ∀ c buf acc, .write c buf acc ∈ log → ∃ q < a.total, buf = a.slice T q) :
    (writtenKeys log).count (msgKey a j) = (sends log).count (j, true) := by
  induction log with
  | nil => rfl
  | cons e log ih =>
      have hrest := ih fun c buf acc hw => h c buf acc (List.mem_cons_of_mem _ hw)
      rw [← List.singleton_append, writtenKeys_append, sends_append, List.count_append,
        List.count_append, hrest]
      refine congrArg (· + _) ?_
      cases e with
      | write c buf acc =>
          obtain ⟨q, hq, rfl⟩ := h c buf acc List.mem_cons_self
          have hsend : sends [.write c (a.slice T q) acc] = [(q, decide (acc = a.slice T q))] := by
            show [(sequenceOf (a.slice T q), _)] = _
            rw [sequenceOf_slice ha.sized hT hq]
          rw [hsend]
          by_cases hfull : acc = a.slice T q
          · have hkey : writtenKeys [.write c (a.slice T q) acc] = [msgKey a q] := by
              simp [writtenKeys, Ev.writeLane, hfull, keyOf_slice hT hq]
            rw [hkey, decide_eq_true hfull]
            by_cases hqj : q = j
            · rw [hqj, List.count_singleton_self, List.count_singleton_self]
            · have hne : msgKey a j ∉ [msgKey a q] := fun hmem =>
                hqj (msgKey_inj ha hj hq (List.mem_singleton.mp hmem)).symm
              have hne' : (j, true) ∉ [(q, true)] := fun hmem =>
                hqj (Prod.mk.inj (List.mem_singleton.mp hmem)).1.symm
              rw [List.count_eq_zero_of_not_mem hne, List.count_eq_zero_of_not_mem hne']
          · have hnil : writtenKeys [.write c (a.slice T q) acc] = [] := by
              simp [writtenKeys, Ev.writeLane, hfull]
            have hne : (j, true) ∉ [(q, false)] := fun hmem =>
              Bool.noConfusion (Prod.mk.inj (List.mem_singleton.mp hmem)).2
            rw [hnil, decide_eq_false hfull, List.count_nil, List.count_eq_zero_of_not_mem hne]
      | record | assertFailed | exit => rfl

/-- All of them are messages of the client. -/
theorem exists_msgKey (hT : a.Prepared T)
    (h : ∀ c buf acc, .write c buf acc ∈ log → ∃ q < a.total, buf = a.slice T q) {k : MsgKey}
    (hk : k ∈ writtenKeys log) : ∃ q < a.total, k = msgKey a q := by
  obtain ⟨⟨c, _⟩, hx, rfl⟩ := List.mem_map.mp hk
  rw [← mem_lane, lane_writeLane] at hx
  obtain ⟨f, hf, rfl⟩ := List.mem_map.mp hx
  obtain ⟨q, hq, rfl⟩ := h c f f (mem_fullWrites.mp hf)
  exact ⟨q, hq, keyOf_slice hT hq⟩

end TcpClient

namespace Chain

variable {ι β : Type} [DecidableEq ι] {a : ι → NbSysArgs} {B : BytesBuffer β} {b₀ : β}
  {T : ι → Bytes} {contents : β → Bytes} {cap : Nat} {σ σ' : Chain ι β}
  {H : List TcpServer.Handled} {F : Nat → List Bytes}

/-! ## One client among all -/

/-- The full writes of all clients, each with its client. -/
def clientItems (tr : List (Proc ι × Ev)) : List (ι × MsgKey) :=
  (tr.filterMap clientLane).map fun x => (x.1.1, x.2)

theorem lane_clientItems (tr : List (Proc ι × Ev)) (i : ι) :
    lane i (clientItems tr) = writtenKeys (eventsOf (.client i) tr) := by
  rw [lane, clientItems, List.filterMap_map, List.filterMap_filterMap, writtenKeys, eventsOf,
    List.filterMap_filterMap, List.map_filterMap]
  refine List.filterMap_congr fun x _ => ?_
  obtain ⟨p, e⟩ := x
  cases p with
  | client i' =>
      by_cases hi : i' = i
      · subst hi
        cases hw : e.writeLane with
        | none => simp [clientLane, hw]
        | some y => simp [clientLane, hw]
      · cases hw : e.writeLane with
        | none => simp [clientLane, hw, hi]
        | some y => simp [clientLane, hw, hi]
  | server => rfl
  | upstream => rfl

omit [DecidableEq ι] in
theorem map_snd_clientItems (tr : List (Proc ι × Ev)) :
    (clientItems tr).map Prod.snd = clientKeys tr := by
  rw [clientItems, List.map_map]
  rfl

/-- The messages of a client with its own user id are written by no other client. -/
theorem count_clientKeys (hid : Function.Injective fun i => (a i).userId) (ht : Traced σ)
    (huser : ∀ i, ∀ k ∈ writtenKeys (σ.client i).log, k.userId = (a i).userId) (i : ι) (j : Nat) :
    (clientKeys σ.trace).count (TcpClient.msgKey (a i) j) =
      (writtenKeys (σ.client i).log).count (TcpClient.msgKey (a i) j) := by
  have hlane : lane i (clientItems σ.trace) = writtenKeys (σ.client i).log := by
    rw [lane_clientItems, ht]
    rfl
  rw [← hlane, ← map_snd_clientItems]
  refine count_map_snd fun x hx hkey => ?_
  have hmem : x.2 ∈ lane x.1 (clientItems σ.trace) := mem_lane.mpr hx
  rw [lane_clientItems, ht] at hmem
  have huid := huser x.1 x.2 hmem
  rw [hkey] at huid
  exact hid huid.symm

/-! ## Runs -/

theorem resends_of_run (hB : B.Fifo contents cap) (h₀ : contents b₀ = []) (ha : ∀ i, (a i).Fits)
    (hT : ∀ i, (a i).Prepared (T i)) {ts : ι → Timespec} {es : List (ChainEvent ι)}
    (hrun : Run (Step a B b₀) (start ts T) es σ) (i : ι) :
    Resends (a i) (T i) (σ.client i).log (TcpClient.done (a i) (σ.client i)) := by
  have h := hrun.invariant
    (I := fun σ => (∃ H F, Linked a T contents H F σ) ∧
      Resends (a i) (T i) (σ.client i).log (TcpClient.done (a i) (σ.client i))) ?_
    ⟨⟨_, _, linked_start ts⟩, (TcpClient.done_start (ts i)).symm ▸ resends_nil⟩
  · exact h.2
  rintro σ e σ' ⟨⟨H, F, h⟩, hresends⟩ hs
  obtain ⟨H', F', _, _, h', _, _⟩ := h.step hB h₀ ha hT hs
  refine ⟨⟨H', F', h'⟩, ?_⟩
  cases hs with
  | @client i' e s hs =>
      by_cases hi : i = i'
      · subst hi
        simp only [setClient, Function.update_self]
        exact TcpClient.resends_step (ha i) (hT i) (h.sends i) hresends hs
      · simp only [setClient, Function.update_of_ne hi]
        exact hresends
  | server hs he hnet => exact hresends
  | serverAccepts hs hfree => exact hresends
  | upstream hs he hnet => exact hresends
  | upstreamAccepts hs hfree => exact hresends

/-- In every run with prepared tables and different user ids, the upstream has at most as
many records of message `j` of a client as there were short or failed sends of later messages
of its round, and one more if the client is past it; where both receivers have read all and
are in no callback, and the server has relayed in full as many messages as it has received,
it has exactly so many. -/
theorem counted_of_run (hB : B.Fifo contents cap) (h₀ : contents b₀ = []) (ha : ∀ i, (a i).Fits)
    (hT : ∀ i, ∃ m, m.length = (a i).tableBytes.toNat ∧ (a i).prepare m = some (T i))
    (hid : Function.Injective fun i => (a i).userId)
    {ts : ι → Timespec} {es : List (ChainEvent ι)}
    (hrun : Run (Step a B b₀) (start ts T) es σ) (i : ι) {j : Nat} (hj : j < (a i).total) :
    (records .upstreamRcv σ.upstream.log).count (TcpClient.msgKey (a i) j) ≤
      Retry.failuresBehind (a i).numPerRound.toNat j (sends (σ.client i).log) +
        (if j < TcpClient.done (a i) (σ.client i) then 1 else 0) ∧
    (ServerCaughtUp σ → UpstreamCaughtUp σ →
      (writtenKeys σ.server.log).length = (records .serverRcv σ.server.log).length →
      (records .upstreamRcv σ.upstream.log).count (TcpClient.msgKey (a i) j) =
        Retry.failuresBehind (a i).numPerRound.toNat j (sends (σ.client i).log) +
          if j < TcpClient.done (a i) (σ.client i) then 1 else 0) := by
  have hT' : ∀ i, (a i).Prepared (T i) := by
    intro i
    obtain ⟨m, hm, hprep⟩ := hT i
    exact NbSysArgs.prepared_of_prepare (ha i).sized hm hprep
  obtain ⟨⟨H, F, h⟩, hset⟩ := settled_of_run hB h₀ ha hT' hrun
  have hresends := resends_of_run hB h₀ ha hT' hrun
  have huser : ∀ i, ∀ k ∈ writtenKeys (σ.client i).log, k.userId = (a i).userId := by
    intro i k hk
    obtain ⟨q, _, rfl⟩ := TcpClient.exists_msgKey (hT' i) (hresends i).slices hk
    rfl
  have hsent : (clientKeys σ.trace).count (TcpClient.msgKey (a i) j) =
      Retry.failuresBehind (a i).numPerRound.toNat j (sends (σ.client i).log) +
        if j < TcpClient.done (a i) (σ.client i) then 1 else 0 := by
    rw [count_clientKeys hid h.traced huser,
      TcpClient.count_writtenKeys (ha i) (hT' i) hj (hresends i).slices, (hresends i).count hj]
  rw [← hsent]
  refine ⟨?_, fun hserver hupstream hlen => ?_⟩
  · calc (records .upstreamRcv σ.upstream.log).count (TcpClient.msgKey (a i) j)
        ≤ (writtenKeys σ.server.log).count (TcpClient.msgKey (a i) j) :=
          (h.upstream_subperm ha hT').count_le _
      _ ≤ (records .serverRcv σ.server.log).count (TcpClient.msgKey (a i) j) :=
          (h.relay_sublist ha hT').count_le _
      _ ≤ (clientKeys σ.trace).count (TcpClient.msgKey (a i) j) :=
          (h.server_subperm ha hT').count_le _
  · have hrelay := (h.relay_sublist ha hT').eq_of_length hlen
    rw [(h.upstream_perm ha hT' hset hupstream).count_eq, hrelay,
      (h.server_perm ha hT' hset hserver).count_eq]

/-- A round is sent twice: the first message arrives twice, the second once. -/
theorem counted_of_run_round_twice : ∃ σ, Run (Step (fun _ : Unit => roundOfTwo)
      (ringBuffer netBenchTcpBufSize) (emptyRing netBenchTcpBufSize fun _ => 0))
      (start (fun _ => ⟨0, 0⟩) fun _ => roundOfTwoTable) roundTwiceThrough σ ∧
    (records .upstreamRcv σ.upstream.log).count ⟨7, 0, 16⟩ = 1 + 1 ∧
    (records .upstreamRcv σ.upstream.log).count ⟨7, 1, 16⟩ = 0 + 1 := by
  obtain ⟨σ, hrun, hserver, hupstream, hlen, _, hsends, hdone⟩ := round_twice_through
  have hcount := fun (j : Nat) (hj : j < roundOfTwo.total) =>
    (counted_of_run (ringBuffer_fifo (c := netBenchTcpBufSize) (by decide)) rfl
      (fun _ => roundOfTwo_fits) (fun _ => ⟨List.replicate 32 0, by decide, roundOfTwo_prepare⟩)
      (Function.injective_of_subsingleton _) hrun () hj).2 hserver hupstream hlen
  rw [hsends, hdone] at hcount
  exact ⟨σ, hrun, hcount 0 (by decide), hcount 1 (by decide)⟩

end Chain

end NetBench
