/-
# `NetBench.Socket` — socket contexts, the event loop, records

What the programs share that lives outside them: the life of a socket context
in the event loop, the outcome of a write, and what a run leaves behind that
can be observed (records, writes, failed assertions).

    thread → queue → live → closed → gone          a connection made by a connect thread
             (accepted) live → closed → gone        a connection accepted by a listener

`threads` counts the connect threads that are running; `queue` holds the
contexts that were given to `muggle_socket_evloop_add_ctx` and whose add
callback has not run.  A context is named by a number that is never used again.
-/
import NetBench.Msg
import Mathlib.Logic.Function.Basic

namespace NetBench

/-! ## Integers -/

/-- The value of a cast to `int`. -/
def castInt (n : Nat) : Int :=
  if n % 2 ^ 32 < 2 ^ 31 then (n % 2 ^ 32 : Nat) else (n % 2 ^ 32 : Nat) - 2 ^ 32

theorem castInt_of_lt {n : Nat} (h : n < 2 ^ 31) : castInt n = n := by
  unfold castInt
  rw [Nat.mod_eq_of_lt (by omega), if_pos h]

/-- A counter below a bound does not wrap. -/
theorem toNat_succ {x y : UInt32} (h : x.toNat < y.toNat) : (x + 1).toNat = x.toNat + 1 := by
  have := y.toNat_lt
  rw [UInt32.toNat_add]
  exact Nat.mod_eq_of_lt (by show x.toNat + 1 < 2 ^ 32; omega)

/-! ## Records -/

/-- The `action` strings of `NETBENCH_RECORD`. -/
inductive Action where
  | clientSndBegin
  | clientSndEnd
  | serverRcv
  | serverSndBegin
  | upstreamRcv
  deriving DecidableEq, Repr

def Action.text : Action → String
  | .clientSndBegin => "client.snd_begin"
  | .clientSndEnd => "client.snd_end"
  | .serverRcv => "server.rcv"
  | .serverSndBegin => "server.snd_begin"
  | .upstreamRcv => "upstream.rcv"

/-- The arguments of `NETBENCH_RECORD`. -/
structure Record where
  userId : UInt32
  id : UInt32
  msgSize : UInt32
  action : Action
  deriving DecidableEq, Repr

/-- The asserted conditions. -/
inductive Assertion where
  /-- `evloop_data->ctx == ctx` -/
  | slot
  /-- `hdr->msg_id == 1` -/
  | msgId
  /-- `data->sequence == seq` -/
  | sequence
  deriving DecidableEq, Repr

/-! ## Writes -/

/-- What the socket does with a write: it takes the first `k` bytes, or fails. -/
inductive WriteOutcome where
  | accept (k : Nat)
  | error
  deriving DecidableEq, Repr

/-- `muggle_socket_ctx_write`: the value returned and the bytes accepted.  A
write on a context that was shut down fails. -/
def ctxWrite (shut : Bool) (w : WriteOutcome) (buf : Bytes) : Int × Bytes :=
  match shut, w with
  | false, .accept k => (castInt (buf.take k).length, buf.take k)
  | _, _ => (-1, [])

theorem ctxWrite_isPrefix (shut : Bool) (w : WriteOutcome) (buf : Bytes) :
    (ctxWrite shut w buf).2 <+: buf := by
  cases shut with
  | true => exact List.nil_prefix
  | false =>
      cases w with
      | error => exact List.nil_prefix
      | accept k => exact List.take_prefix k buf

theorem ctxWrite_shut (w : WriteOutcome) (buf : Bytes) : ctxWrite true w buf = (-1, []) := by
  cases w with
  | error => rfl
  | accept k => rfl

/-- For a buffer whose length fits an `int`, the value returned is its length
exactly when all of it was accepted, on an open context. -/
theorem ctxWrite_full_iff (shut : Bool) (w : WriteOutcome) {buf : Bytes}
    (hlen : buf.length < 2 ^ 31) (hpos : 0 < buf.length) :
    (ctxWrite shut w buf).1 = castInt buf.length ↔ (ctxWrite shut w buf).2 = buf := by
  have hbuf : castInt buf.length = buf.length := castInt_of_lt hlen
  have hne : ¬ ([] : Bytes) = buf := by
    rintro rfl
    exact absurd hpos (Nat.lt_irrefl 0)
  have herr : ¬ (-1 : Int) = buf.length := by omega
  cases shut with
  | true =>
      rw [ctxWrite_shut, hbuf]
      exact iff_of_false herr hne
  | false =>
      cases w with
      | error =>
          rw [hbuf]
          exact iff_of_false herr hne
      | accept k =>
          have hle : (buf.take k).length ≤ buf.length := (List.take_prefix k buf).length_le
          show castInt (buf.take k).length = castInt buf.length ↔ buf.take k = buf
          rw [castInt_of_lt (by omega), hbuf]
          constructor
          · intro h
            exact (List.take_prefix k buf).eq_of_length (by omega)
          · intro h
            rw [h]

/-- A context that accepted all of a nonempty buffer was open. -/
theorem ctxWrite_open {shut : Bool} {w : WriteOutcome} {buf : Bytes} (hpos : 0 < buf.length)
    (h : (ctxWrite shut w buf).2 = buf) : shut = false := by
  cases shut with
  | false => rfl
  | true =>
      rw [ctxWrite_shut] at h
      subst h
      exact absurd hpos (Nat.lt_irrefl 0)

/-! ## The observable trace -/

/-- What happens on the event-loop thread, with the context it is about. -/
inductive Ev where
  /-- `NETBENCH_RECORD` -/
  | record (c : Nat) (r : Record)
  /-- `muggle_socket_ctx_write` of `buf`, of which `acc` was accepted -/
  | write (c : Nat) (buf acc : Bytes)
  /-- a failed `NB_ASSERT`; execution goes on as it does where assertions are off -/
  | assertFailed (c : Nat) (x : Assertion)
  /-- `muggle_evloop_exit` -/
  | exit
  deriving DecidableEq

/-- `NB_ASSERT`. -/
def nbAssert (c : Nat) (x : Assertion) (ok : Bool) : List Ev :=
  if ok then [] else [.assertFailed c x]

theorem mem_nbAssert {c : Nat} {x : Assertion} {ok : Bool} {e : Ev} :
    e ∈ nbAssert c x ok ↔ ok = false ∧ e = .assertFailed c x := by
  cases ok with
  | true => exact iff_of_false (fun h => nomatch h) (fun h => nomatch h.1)
  | false => simp [nbAssert]

/-- The record that an event makes. -/
def Ev.record? : Ev → Option Record
  | .record _ r => some r
  | _ => none

/-- The bytes that one event adds to what `c` has accepted. -/
def Ev.acceptedOn (c : Nat) : Ev → Bytes
  | .write d _ acc => if d = c then acc else []
  | _ => []

/-- The bytes accepted on `c`. -/
def wire (log : List Ev) (c : Nat) : Bytes := log.flatMap (Ev.acceptedOn c)

@[simp] theorem wire_nil (c : Nat) : wire [] c = [] := rfl

@[simp] theorem wire_append (l l' : List Ev) (c : Nat) :
    wire (l ++ l') c = wire l c ++ wire l' c :=
  List.flatMap_append

@[simp] theorem wire_nbAssert (c d : Nat) (x : Assertion) (ok : Bool) :
    wire (nbAssert d x ok) c = [] := by
  cases ok with
  | true => rfl
  | false => rfl

/-! ## The event loop -/

/-- The contexts of one event loop.  No context is in two places, and `next` is
above all of them. -/
structure EventLoop where
  next : Nat
  threads : Nat
  queue : List Nat
  live : List Nat
  closed : List Nat
  nodup : (queue ++ (live ++ closed)).Nodup
  lt : ∀ c ∈ queue ++ (live ++ closed), c < next

namespace EventLoop

/-- The loop to which one connected context was handed. -/
def one : EventLoop := ⟨1, 0, [0], [], [], by decide, by decide⟩

/-- `nb_tcp_async_connect`: one more connect thread. -/
def asyncConnect (L : EventLoop) : EventLoop := { L with threads := L.threads + 1 }

theorem perm_add {c : Nat} {q l d : List Nat} (h : c ∈ q) :
    (q.erase c ++ ((l ++ [c]) ++ d)).Perm (q ++ (l ++ d)) := by
  have hq : q.Perm (c :: q.erase c) := List.perm_cons_erase h
  calc (q.erase c ++ ((l ++ [c]) ++ d)).Perm (q.erase c ++ (c :: (l ++ d))) := by
        rw [List.append_assoc, List.singleton_append]
        exact List.Perm.append_left _ List.perm_middle
    List.Perm _ (c :: (q.erase c ++ (l ++ d))) := List.perm_middle
    List.Perm _ (q ++ (l ++ d)) := (hq.append_right _).symm

/-- A connect thread has a connection and hands it to the loop. -/
def connected (L : EventLoop) : EventLoop where
  next := L.next + 1
  threads := L.threads - 1
  queue := L.next :: L.queue
  live := L.live
  closed := L.closed
  nodup := List.nodup_cons.mpr ⟨fun h => Nat.lt_irrefl _ (L.lt _ h), L.nodup⟩
  lt c h := by
    rcases List.mem_cons.mp h with rfl | h
    · exact Nat.lt_succ_self _
    · exact Nat.lt_succ_of_lt (L.lt c h)

/-- The loop takes `c` from its queue. -/
def add (L : EventLoop) (c : Nat) (h : c ∈ L.queue) : EventLoop where
  next := L.next
  threads := L.threads
  queue := L.queue.erase c
  live := L.live ++ [c]
  closed := L.closed
  nodup := (perm_add h).nodup_iff.mpr L.nodup
  lt d hd := L.lt d ((perm_add h).subset hd)

/-- A listener has accepted a connection. -/
def accept (L : EventLoop) : EventLoop where
  next := L.next + 1
  threads := L.threads
  queue := L.queue
  live := L.next :: L.live
  closed := L.closed
  nodup := List.perm_middle.nodup_iff.mpr
    (List.nodup_cons.mpr ⟨fun h => Nat.lt_irrefl _ (L.lt _ h), L.nodup⟩)
  lt c h := by
    rcases List.mem_cons.mp (List.perm_middle.subset h) with rfl | h
    · exact Nat.lt_succ_self _
    · exact Nat.lt_succ_of_lt (L.lt c h)

def close (L : EventLoop) (c : Nat) (h : c ∈ L.live) : EventLoop where
  next := L.next
  threads := L.threads
  queue := L.queue
  live := L.live.erase c
  closed := c :: L.closed
  nodup := by
    have hp : (L.live.erase c ++ c :: L.closed).Perm (L.live ++ L.closed) :=
      List.perm_middle.trans ((List.perm_cons_erase h).append_right _).symm
    exact (hp.append_left _).nodup_iff.mpr L.nodup
  lt d hd := by
    have hp : (L.live.erase c ++ c :: L.closed).Perm (L.live ++ L.closed) :=
      List.perm_middle.trans ((List.perm_cons_erase h).append_right _).symm
    exact L.lt d ((hp.append_left _).subset hd)

def release (L : EventLoop) (c : Nat) : EventLoop where
  next := L.next
  threads := L.threads
  queue := L.queue
  live := L.live
  closed := L.closed.erase c
  nodup := L.nodup.sublist
    ((List.erase_sublist.append_left L.live).append_left L.queue)
  lt d hd := L.lt d (((List.erase_sublist.append_left L.live).append_left L.queue).subset hd)

variable {L : EventLoop} {c : Nat}

theorem lt_of_queue (h : c ∈ L.queue) : c < L.next := L.lt c (List.mem_append_left _ h)

theorem lt_of_live (h : c ∈ L.live) : c < L.next :=
  L.lt c (List.mem_append_right _ (List.mem_append_left _ h))

theorem lt_of_closed (h : c ∈ L.closed) : c < L.next :=
  L.lt c (List.mem_append_right _ (List.mem_append_right _ h))

theorem not_live_of_queue (h : c ∈ L.queue) : c ∉ L.live := fun hl =>
  (List.nodup_append.mp L.nodup).2.2 c h c (List.mem_append_left _ hl) rfl

theorem not_closed_of_queue (h : c ∈ L.queue) : c ∉ L.closed := fun hl =>
  (List.nodup_append.mp L.nodup).2.2 c h c (List.mem_append_right _ hl) rfl

theorem not_live_of_closed (h : c ∈ L.closed) : c ∉ L.live := fun hl =>
  (List.nodup_append.mp (List.nodup_append.mp L.nodup).2.1).2.2 c hl c h rfl

theorem nodup_queue (L : EventLoop) : L.queue.Nodup := (List.nodup_append.mp L.nodup).1

theorem nodup_live (L : EventLoop) : L.live.Nodup :=
  (List.nodup_append.mp (List.nodup_append.mp L.nodup).2.1).1

end EventLoop

end NetBench
