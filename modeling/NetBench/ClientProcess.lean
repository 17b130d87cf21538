/-
# `NetBench.ClientProcess` — successive runs of the TCP client

`main` calls `run` once for each message size.  `run` returns at once without a host and a
port to connect to, for a message size below 16, and when it gets no event loop.

A connect thread keeps the pointer to the event loop for which it was started, and nobody
waits for it: `tcp_client_on_timer` ends the loop when the last round is done, whether or not
the connection was closed in between, and `run` then deletes the loop.

A thread that is still connecting at that moment hands its connection to a
deleted loop.  `deadAdds` notes these calls; `pending` threads at a deletion are
what makes them (`deadAdds_iff`).
-/
import NetBench.ClientSlot
import Mathlib.Algebra.GroupWithZero.Nat

namespace NetBench

open Lib

/-- The strings of `nb_sys_args_t` that `run` of the client looks at. -/
structure ConnArgs where
  connHost : String
  connPort : String
  deriving DecidableEq, Repr

/-- `run` goes on to make an event loop. -/
def NbSysArgs.admitted (u : ConnArgs) (a : NbSysArgs) : Bool :=
  decide (u.connHost ≠ "" ∧ u.connPort ≠ "" ∧ sizeofMsgHdr + sizeofMsgData ≤ a.msgSize.toNat)

/-- One `run` in progress. -/
structure Running (β : Type) where
  args : NbSysArgs
  client : TcpClient β

/-- The process: the `run` in progress, the calls of `run` to come, and what is
left of those that returned.  Event loops are numbered in the order of the calls. -/
structure ClientProcess (β : Type) where
  cur : Option (Running β)
  todo : List NbSysArgs
  /-- the number of event loops made so far; the current one is the last -/
  loops : Nat
  deleted : List Nat
  /-- the loop of each connect thread that outlived its `run` -/
  orphans : List Nat
  /-- the loops on which a thread called `muggle_socket_evloop_add_ctx` after their deletion -/
  deadAdds : List Nat

inductive ProcessEvent where
  /-- `run` is called and starts its loop -/
  | call (ts : Timespec) (m : Bytes)
  /-- `run` refuses its arguments -/
  | refuse
  /-- `run` is called, and `muggle_evloop_new` returns `NULL` -/
  | noLoop
  /-- the loop's thread moves -/
  | client (e : ClientEvent)
  /-- a connect thread of the current loop has a connection -/
  | thread
  /-- a connect thread of loop `g` that outlived its `run` has a connection -/
  | orphan (g : Nat)
  /-- `run` deletes its loop, with so many connect threads still running, and returns -/
  | finish (pending : Nat)

namespace ClientProcess

variable {β : Type} (u : ConnArgs) (B : BytesBuffer β) (b₀ : β)

/-- `main` with the arguments of its calls of `run`. -/
def start (todo : List NbSysArgs) : ClientProcess β := ⟨none, todo, 0, [], [], []⟩

/-- `muggle_socket_evloop_add_ctx` on loop `g`, by a connect thread. -/
def addCtx (g : Nat) (p : ClientProcess β) : ClientProcess β :=
  if g ∈ p.deleted then { p with deadAdds := g :: p.deadAdds } else p

/-- The steps of the process. -/
inductive Step : ClientProcess β → ProcessEvent → ClientProcess β → Prop
  | call {p : ClientProcess β} {a : NbSysArgs} {todo : List NbSysArgs} {ts : Timespec}
      {m T : Bytes} (hcur : p.cur = none) (htodo : p.todo = a :: todo)
      (hadm : a.admitted u = true) (hm : m.length = a.tableBytes.toNat)
      (hT : a.prepare m = some T) :
      Step p (.call ts m)
        { p with cur := some ⟨a, .start ts T⟩, todo := todo, loops := p.loops + 1 }
  | refuse {p : ClientProcess β} {a : NbSysArgs} {todo : List NbSysArgs} (hcur : p.cur = none)
      (htodo : p.todo = a :: todo) (hadm : a.admitted u = false) :
      Step p .refuse { p with todo := todo }
  | noLoop {p : ClientProcess β} {a : NbSysArgs} {todo : List NbSysArgs} (hcur : p.cur = none)
      (htodo : p.todo = a :: todo) (hadm : a.admitted u = true) :
      Step p .noLoop { p with todo := todo }
  | client {p : ClientProcess β} {r : Running β} {e : ClientEvent} {s : TcpClient β}
      (hcur : p.cur = some r) (hs : TcpClient.Step r.args B b₀ r.client e s)
      (he : e ≠ .connected) :
      Step p (.client e) { p with cur := some { r with client := s } }
  | thread {p : ClientProcess β} {r : Running β} {s : TcpClient β} (hcur : p.cur = some r)
      (hs : TcpClient.Step r.args B b₀ r.client .connected s) :
      Step p .thread (addCtx (p.loops - 1) { p with cur := some { r with client := s } })
  | orphan {p : ClientProcess β} {g : Nat} (hg : g ∈ p.orphans) :
      Step p (.orphan g) (addCtx g { p with orphans := p.orphans.erase g })
  | finish {p : ClientProcess β} {r : Running β} {k : Nat} (hcur : p.cur = some r)
      (hs : r.client.sending = none) (hexit : .exit ∈ r.client.log)
      (hk : r.client.loop.threads = k) :
      Step p (.finish k)
        { p with
          cur := none
          deleted := (p.loops - 1) :: p.deleted
          orphans := List.replicate k (p.loops - 1) ++ p.orphans }

variable {u B b₀}

/-! ## Threads that outlive their run -/

/-- The threads that were still connecting when their loop was deleted. -/
def pending (es : List ProcessEvent) : Nat :=
  (es.map fun
    | .finish k => k
    | _ => 0).sum

theorem pending_append (es fs : List ProcessEvent) :
    pending (es ++ fs) = pending es + pending fs := by
  simp [pending]

theorem pending_eq_zero {es : List ProcessEvent} :
    pending es = 0 ↔ ∀ k, .finish k ∈ es → k = 0 := by
  induction es with
  | nil => exact iff_of_true rfl fun _ h => nomatch h
  | cons e es ih =>
      rw [pending, List.map_cons, List.sum_cons, Nat.add_eq_zero_iff]
      constructor
      · rintro ⟨he, hes⟩ k hk
        rcases List.mem_cons.mp hk with rfl | hk
        · exact he
        · exact ih.mp hes k hk
      · intro h
        refine ⟨?_, ih.mpr fun k hk => h k (List.mem_cons_of_mem _ hk)⟩
        cases e with
        | finish k => exact h k List.mem_cons_self
        | call | refuse | noLoop | client | thread | orphan => rfl

/-- The current loop is not deleted, the orphans belong to deleted loops, and each
thread that was pending at a deletion is an orphan or has called. -/
structure Accounts (es : List ProcessEvent) (p : ClientProcess β) : Prop where
  current : ∀ r, p.cur = some r → 0 < p.loops ∧ p.loops - 1 ∉ p.deleted
  deleted : ∀ g ∈ p.deleted, g < p.loops
  orphans : ∀ g ∈ p.orphans, g ∈ p.deleted
  count : p.orphans.length + p.deadAdds.length = pending es

theorem accounts_start (todo : List NbSysArgs) :
    Accounts [] (start todo : ClientProcess β) where
  current _ h := nomatch h
  deleted _ h := nomatch h
  orphans _ h := nomatch h
  count := rfl

/-- Every step keeps the accounts. -/
theorem Accounts.step {es : List ProcessEvent} {p p' : ClientProcess β} (h : Accounts es p)
    {e : ProcessEvent} (hs : Step u B b₀ p e p') : Accounts (es ++ [e]) p' := by
  have hcount : ∀ {e : ProcessEvent}, (∀ k, e ≠ .finish k) → pending (es ++ [e]) = pending es := by
    intro e he
    rw [pending_append, Nat.add_eq_left, pending_eq_zero]
    intro k hk
    exact absurd (List.mem_singleton.mp hk).symm (he k)
  cases hs with
  | call hcur htodo hadm hm hT =>
      refine ⟨fun r _ => ⟨Nat.succ_pos _, fun hmem => ?_⟩,
        fun g hg => Nat.lt_succ_of_lt (h.deleted g hg), h.orphans, ?_⟩
      · exact absurd (h.deleted _ hmem) (Nat.lt_irrefl _)
      · rw [hcount fun _ => ProcessEvent.noConfusion]
        exact h.count
  | refuse hcur htodo hadm =>
      refine ⟨h.current, h.deleted, h.orphans, ?_⟩
      rw [hcount fun _ => ProcessEvent.noConfusion]
      exact h.count
  | noLoop hcur htodo hadm =>
      refine ⟨h.current, h.deleted, h.orphans, ?_⟩
      rw [hcount fun _ => ProcessEvent.noConfusion]
      exact h.count
  | client hcur hs he =>
      refine ⟨fun _ _ => h.current _ hcur, h.deleted, h.orphans, ?_⟩
      rw [hcount fun _ => ProcessEvent.noConfusion]
      exact h.count
  | thread hcur hs =>
      rw [addCtx, if_neg (h.current _ hcur).2]
      refine ⟨fun _ _ => h.current _ hcur, h.deleted, h.orphans, ?_⟩
      rw [hcount fun _ => ProcessEvent.noConfusion]
      exact h.count
  | @orphan g hg =>
      rw [addCtx, if_pos (h.orphans g hg)]
      refine ⟨h.current, h.deleted, fun d hd => h.orphans d (List.mem_of_mem_erase hd), ?_⟩
      rw [hcount fun _ => ProcessEvent.noConfusion, ← h.count]
      have hpos := List.length_pos_of_mem hg
      have hlen := List.length_erase_of_mem hg
      show (p.orphans.erase g).length + (p.deadAdds.length + 1) = _
      omega
  | @finish r k hcur hs hexit hk =>
      obtain ⟨hpos, _⟩ := h.current r hcur
      refine ⟨?_, ?_, ?_, ?_⟩
      · intro r hr
        cases hr
      · intro g hg
        rcases List.mem_cons.mp hg with rfl | hg
        · exact Nat.sub_lt hpos Nat.one_pos
        · exact h.deleted g hg
      · intro g hg
        rcases List.mem_append.mp hg with hg | hg
        · rw [List.eq_of_mem_replicate hg]
          exact List.mem_cons_self
        · exact List.mem_cons_of_mem _ (h.orphans g hg)
      · have hone : pending [.finish k] = k := Nat.add_zero _
        rw [pending_append, hone, ← h.count]
        show (List.replicate _ _ ++ p.orphans).length + p.deadAdds.length = _
        rw [List.length_append, List.length_replicate]
        omega

theorem accounts_of_run {todo : List NbSysArgs} {es : List ProcessEvent} {p : ClientProcess β}
    (hrun : Run (Step u B b₀) (start todo) es p) : Accounts es p :=
  hrun.history (I := Accounts) (fun _ _ _ _ h hs => h.step hs) (accounts_start todo)

/-- All orphans can call, one after the other. -/
theorem exists_run_orphans : ∀ (gs : List Nat) (p : ClientProcess β), p.orphans = gs →
    ∃ p', Run (Step u B b₀) p (gs.map .orphan) p' ∧ p'.orphans = []
  | [], p, h => ⟨p, .nil p, h⟩
  | g :: gs, p, h => by
      have hg : g ∈ p.orphans := h ▸ List.mem_cons_self
      have hnext : (addCtx g { p with orphans := p.orphans.erase g }).orphans = gs := by
        rw [addCtx]
        split
        · show p.orphans.erase g = gs
          rw [h, List.erase_cons_head]
        · show p.orphans.erase g = gs
          rw [h, List.erase_cons_head]
      obtain ⟨p', hrun, hnil⟩ := exists_run_orphans gs _ hnext
      exact ⟨p', .cons (.orphan hg) hrun, hnil⟩

/-- However the threads that are left may finish, none of them calls
`muggle_socket_evloop_add_ctx` on a deleted loop, if and only if every deletion
happened with no connect thread of that loop running. -/
theorem deadAdds_iff {todo : List NbSysArgs} {es : List ProcessEvent} {p : ClientProcess β}
    (hrun : Run (Step u B b₀) (start todo) es p) :
    (∀ (gs : List Nat) p', Run (Step u B b₀) p (gs.map .orphan) p' → p'.deadAdds = []) ↔
      ∀ k, .finish k ∈ es → k = 0 := by
  have hcont : ∀ gs : List Nat, pending (gs.map .orphan) = 0 := by
    intro gs
    refine pending_eq_zero.mpr fun k hk => ?_
    obtain ⟨g, _, hg⟩ := List.mem_map.mp hk
    cases hg
  rw [← pending_eq_zero]
  constructor
  · intro h
    obtain ⟨p', hrun', hnil⟩ := exists_run_orphans (u := u) (B := B) p.orphans p rfl
    have hacc := (accounts_of_run (hrun.append hrun')).count
    rw [h _ p' hrun', hnil, pending_append, hcont] at hacc
    exact hacc.symm
  · intro h gs p' hrun'
    have hacc := (accounts_of_run (hrun.append hrun')).count
    rw [pending_append, hcont, h] at hacc
    exact List.eq_nil_of_length_eq_zero (by omega)

/-- A host and a port. -/
def localhost : ConnArgs := ⟨"127.0.0.1", "10102"⟩

/-- The last round is done, then the connection is closed; the timer ends the loop
before the connect thread has a connection. -/
def closeAfterLastRound : List ProcessEvent :=
  [.call ⟨0, 0⟩ (List.replicate 16 0), .client (.add 0 ⟨0, 0⟩ true), .client (.timer ⟨0, 0⟩),
    .client (.send (.accept 16)), .client .roundDone, .client (.close 0), .client (.timer ⟨0, 0⟩),
    .finish 1, .orphan 0]

/-- The thread calls on the loop that was deleted. -/
theorem add_on_deleted_loop : ∃ p, Run (Step localhost (ringBuffer netBenchTcpBufSize)
      (emptyRing netBenchTcpBufSize fun _ => 0)) (start [TcpClient.oneMessage]) closeAfterLastRound p ∧
    p.deleted = [0] ∧ p.deadAdds = [0] :=
  ⟨_, .cons (.call rfl rfl rfl (by decide) rfl)
    (.cons (.client rfl (.add rfl List.mem_cons_self) ClientEvent.noConfusion)
    (.cons (.client rfl (.timer rfl) ClientEvent.noConfusion)
    (.cons (.client rfl (.send rfl (by decide) rfl rfl) ClientEvent.noConfusion)
    (.cons (.client rfl (.roundDone rfl (by decide)) ClientEvent.noConfusion)
    (.cons (.client rfl (.close rfl List.mem_cons_self) ClientEvent.noConfusion)
    (.cons (.client rfl (.timer rfl) ClientEvent.noConfusion)
    (.cons (.finish rfl rfl (by decide) rfl) (.cons (.orphan List.mem_cons_self) (.nil _))))))))),
    rfl, rfl⟩

/-- The same with the thread in time: it calls on the loop while that is there. -/
def connectedInTime : List ProcessEvent :=
  [.call ⟨0, 0⟩ (List.replicate 16 0), .client (.add 0 ⟨0, 0⟩ true), .client (.timer ⟨0, 0⟩),
    .client (.send (.accept 16)), .client .roundDone, .client (.close 0), .thread,
    .client (.timer ⟨0, 0⟩), .finish 0]

theorem no_deadAdds_in_time : ∃ p, Run (Step localhost (ringBuffer netBenchTcpBufSize)
      (emptyRing netBenchTcpBufSize fun _ => 0)) (start [TcpClient.oneMessage]) connectedInTime p ∧
    p.deleted = [0] ∧ p.deadAdds = [] := by
  obtain ⟨p, hrun, hdel⟩ : ∃ p, Run (Step localhost (ringBuffer netBenchTcpBufSize)
      (emptyRing netBenchTcpBufSize fun _ => 0)) (start [TcpClient.oneMessage]) connectedInTime p ∧
      p.deleted = [0] :=
    ⟨_, .cons (.call rfl rfl rfl (by decide) rfl)
      (.cons (.client rfl (.add rfl List.mem_cons_self) ClientEvent.noConfusion)
      (.cons (.client rfl (.timer rfl) ClientEvent.noConfusion)
      (.cons (.client rfl (.send rfl (by decide) rfl rfl) ClientEvent.noConfusion)
      (.cons (.client rfl (.roundDone rfl (by decide)) ClientEvent.noConfusion)
      (.cons (.client rfl (.close rfl List.mem_cons_self) ClientEvent.noConfusion)
      (.cons (.thread rfl (.connected (by decide)))
      (.cons (.client rfl (.timer rfl) ClientEvent.noConfusion)
      (.cons (.finish rfl rfl (by decide) rfl) (.nil _))))))))), rfl⟩
  refine ⟨p, hrun, hdel, (deadAdds_iff hrun).mpr ?_ [] p (.nil p)⟩
  intro k hk
  simpa [connectedInTime] using hk

end ClientProcess

end NetBench
