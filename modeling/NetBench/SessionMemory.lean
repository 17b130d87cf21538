/-
# `NetBench.SessionMemory` — the memory of the TCP sessions

`nb_tcp_session_new` allocates a `nb_tcp_session_t` and its receive buffer: on huge
pages, or with `muggle_bytes_buffer_init` if those are not to be had.
`nb_tcp_session_delete` tells the two apart by `mem_res.data`.  The pointer to a
session is kept in its context; the callbacks of the programs create and delete it.

    create:  `muggle_socket_ctx_set_data(ctx, nb_tcp_session_new(..))`
    delete:  `session = get_data(ctx); if (session) nb_tcp_session_delete(session)`

`DataAct` says which of them a callback does, `SessionHeap.exec` what it does to the
heap.  A `SessionProgram` is a program that creates sessions only in contexts that
enter its loop and deletes only those of contexts that leave it; then nothing is freed
twice, nothing is freed by the wrong function, and what is allocated is the memory of
the contexts in the loop (`SessionProgram.exact_of_run`).  The client, the server and
the upstream are three such programs.
-/
import NetBench.ClientSlot
import NetBench.ServerSlot
import NetBench.TcpUpstream
import NetBench.Lib.Heap

namespace NetBench

open Lib

/-! ## The heap -/

/-- The functions that allocate; each has one that releases. -/
inductive Allocator where
  /-- `malloc`, `free` -/
  | malloc
  /-- `muggle_memory_res_init`, `muggle_memory_res_destroy` -/
  | memRes
  /-- `muggle_bytes_buffer_init`, `muggle_bytes_buffer_destroy` -/
  | bytesBuffer
  deriving DecidableEq, Repr

/-- A block can only be released by the counterpart of its allocator. -/
structure MemBlock where
  source : Allocator
  addr : Nat
  deriving DecidableEq, Repr

/-- The pointers of a `nb_tcp_session_t`. -/
structure SessionMem where
  /-- the address of the session itself -/
  addr : Nat
  /-- `mem_res.data`; `none` is `NULL` -/
  memRes : Option Nat
  /-- `bytes_buf.buffer` -/
  buffer : Nat
  deriving DecidableEq, Repr

/-- The blocks that a session answers for. -/
def SessionMem.blocks (m : SessionMem) : List MemBlock :=
  match m.memRes with
  | some p => [⟨.malloc, m.addr⟩, ⟨.memRes, p⟩]
  | none => [⟨.malloc, m.addr⟩, ⟨.bytesBuffer, m.buffer⟩]

theorem SessionMem.length_blocks (m : SessionMem) : m.blocks.length = 2 := by
  unfold SessionMem.blocks
  split
  · rfl
  · rfl

/-- What was allocated and released so far, and the sessions in the contexts. -/
structure SessionHeap where
  /-- the address of the next block; none is used twice -/
  next : Nat
  ops : List (HeapOp MemBlock)
  /-- `muggle_socket_ctx_get_data` -/
  data : Nat → Option SessionMem

/-- What a callback does with the session of a context. -/
inductive DataAct where
  | keep
  | create (c : Nat)
  | delete (c : Nat)
  deriving DecidableEq, Repr

/-- Which contexts have data. -/
def hasData {α : Type} (data : Nat → Option α) (c : Nat) : Bool := (data c).isSome

theorem hasData_update {α : Type} (data : Nat → Option α) (c : Nat) (x : Option α) :
    hasData (Function.update data c x) = Function.update (hasData data) c x.isSome :=
  Function.comp_update Option.isSome data c x

/-- The contexts that have a session after `act`. -/
def DataAct.has (has : Nat → Bool) : DataAct → Nat → Bool
  | .keep => has
  | .create c => Function.update has c true
  | .delete c => Function.update has c false

namespace SessionHeap

def init : SessionHeap := ⟨0, [], fun _ => none⟩

/-- An allocation that succeeds: the address and the heap after it. -/
def alloc (h : SessionHeap) (src : Allocator) : Nat × SessionHeap :=
  (h.next, { h with next := h.next + 1, ops := h.ops ++ [.alloc ⟨src, h.next⟩] })

def free (h : SessionHeap) (src : Allocator) (p : Nat) : SessionHeap :=
  { h with ops := h.ops ++ [.free ⟨src, p⟩] }

/-- `nb_tcp_session_new`; `huge` says whether `muggle_memory_res_init` succeeds. -/
def nbTcpSessionNew (h : SessionHeap) (huge : Bool) : SessionMem × SessionHeap :=
  let (session, h) := h.alloc .malloc
  if huge then
    let (p, h) := h.alloc .memRes
    (⟨session, some p, p⟩, h)
  else
    -- `mem_res` is cleared
    let (p, h) := h.alloc .bytesBuffer
    (⟨session, none, p⟩, h)

/-- `nb_tcp_session_delete`. -/
def nbTcpSessionDelete (h : SessionHeap) (m : SessionMem) : SessionHeap :=
  let h :=
    match m.memRes with
    | some p => h.free .memRes p
    | none => h.free .bytesBuffer m.buffer
  h.free .malloc m.addr

def exec (h : SessionHeap) (huge : Bool) : DataAct → SessionHeap
  | .keep => h
  | .create c =>
      let (m, h) := h.nbTcpSessionNew huge
      { h with data := Function.update h.data c (some m) }
  | .delete c =>
      match h.data c with
      | none => h
      | some m => { h.nbTcpSessionDelete m with data := Function.update h.data c none }

/-- The blocks of the session of `c`. -/
def held (h : SessionHeap) (c : Nat) : List MemBlock :=
  match h.data c with
  | none => []
  | some m => m.blocks

theorem held_update (h : SessionHeap) (c : Nat) (x : Option SessionMem) :
    held { h with data := Function.update h.data c x } =
      Function.update h.held c (match x with | none => [] | some m => m.blocks) := by
  funext d
  by_cases hd : d = c
  · subst hd
    simp only [held, Function.update_self]
  · simp only [held, Function.update_of_ne hd]

/-- A new session has two new blocks, one behind the other. -/
theorem nbTcpSessionNew_spec (h : SessionHeap) (huge : Bool) :
    ∃ m, (h.nbTcpSessionNew huge).1 = m ∧ m.blocks.Nodup ∧
      (∀ b ∈ m.blocks, h.next ≤ b.addr ∧ b.addr < h.next + 2) ∧
      (h.nbTcpSessionNew huge).2 =
        { h with next := h.next + 2, ops := h.ops ++ m.blocks.map .alloc } := by
  cases huge with
  | true =>
      refine ⟨_, rfl, by simp [nbTcpSessionNew, SessionMem.blocks], ?_, ?_⟩
      · simp [nbTcpSessionNew, SessionMem.blocks, alloc]
      · simp [nbTcpSessionNew, SessionMem.blocks, alloc]
  | false =>
      refine ⟨_, rfl, by simp [nbTcpSessionNew, SessionMem.blocks], ?_, ?_⟩
      · simp [nbTcpSessionNew, SessionMem.blocks, alloc]
      · simp [nbTcpSessionNew, SessionMem.blocks, alloc]

/-- A deletion releases the blocks of the session, the struct last. -/
theorem nbTcpSessionDelete_eq (h : SessionHeap) (m : SessionMem) :
    h.nbTcpSessionDelete m = { h with ops := h.ops ++ m.blocks.reverse.map .free } := by
  obtain ⟨addr, memRes, buffer⟩ := m
  cases memRes with
  | none => simp [nbTcpSessionDelete, SessionMem.blocks, free]
  | some p => simp [nbTcpSessionDelete, SessionMem.blocks, free]

/-! ## What a callback keeps -/

/-- The operations so far did not fault, the live blocks are those of the sessions, and
the contexts with a session are those that `has` says. -/
structure Balanced (h : SessionHeap) (has : Nat → Bool) (live : Finset MemBlock) : Prop where
  ops : allocated h.ops = some live
  owned : Owned h.held live
  below : ∀ b ∈ live, b.addr < h.next
  data : hasData h.data = has

theorem balanced_init : Balanced init (fun _ => false) ∅ where
  ops := rfl
  owned := .empty
  below _ hb := absurd hb (Finset.notMem_empty _)
  data := rfl

variable {h : SessionHeap} {has : Nat → Bool} {live : Finset MemBlock} {c : Nat}

/-- A session is created in a context that has none. -/
theorem Balanced.create (hb : Balanced h has live) (hc : has c = false) (huge : Bool) :
    ∃ live', Balanced (h.exec huge (.create c)) (DataAct.has has (.create c)) live' := by
  obtain ⟨m, hm, hnd, haddr, hnew⟩ := h.nbTcpSessionNew_spec huge
  have hnone : h.held c = [] := by
    have hdata : h.data c = none := by
      rw [← hb.data] at hc
      exact Option.isSome_eq_false_iff.mp hc |> Option.isNone_iff_eq_none.mp
    rw [held, hdata]
  have hfresh : ∀ b ∈ m.blocks, b ∉ live := fun b hmem hlive =>
    absurd (hb.below b hlive) (Nat.not_lt_of_le (haddr b hmem).1)
  obtain ⟨hops, howned⟩ := hb.owned.take hnone hnd hfresh
  have hexec : h.exec huge (.create c) =
      ⟨h.next + 2, h.ops ++ m.blocks.map .alloc, Function.update h.data c (some m)⟩ := by
    simp only [exec, hm, hnew]
  rw [hexec]
  refine ⟨_, (allocated_append hb.ops).trans hops, ?_, fun b hmem => ?_, ?_⟩
  · exact (held_update h c (some m)).symm ▸ howned
  · rcases Finset.mem_union.mp hmem with hmem | hmem
    · exact Nat.lt_of_lt_of_le (hb.below b hmem) (Nat.le_add_right _ 2)
    · exact (haddr b (List.mem_toFinset.mp hmem)).2
  · rw [← hb.data]
    exact hasData_update h.data c (some m)

/-- The session of a context is deleted, if it has one. -/
theorem Balanced.delete (hb : Balanced h has live) (c : Nat) (huge : Bool) :
    ∃ live', Balanced (h.exec huge (.delete c)) (DataAct.has has (.delete c)) live' := by
  cases hm : h.data c with
  | none =>
      have hexec : h.exec huge (.delete c) = h := by
        simp only [exec, hm]
      have hhas : DataAct.has has (.delete c) = has := by
        show Function.update has c false = has
        rw [Function.update_eq_self_iff, ← hb.data, hasData, hm]
        rfl
      rw [hexec, hhas]
      exact ⟨live, hb⟩
  | some m =>
      have hperm : m.blocks.reverse.Perm (h.held c) := by
        rw [held, hm]
        exact m.blocks.reverse_perm
      obtain ⟨hops, howned⟩ := hb.owned.drop hperm
      have hexec : h.exec huge (.delete c) =
          ⟨h.next, h.ops ++ m.blocks.reverse.map .free, Function.update h.data c none⟩ := by
        simp only [exec, hm, nbTcpSessionDelete_eq]
      rw [hexec]
      refine ⟨_, (allocated_append hb.ops).trans hops, ?_, fun b hmem => ?_, ?_⟩
      · exact (held_update h c none).symm ▸ howned
      · exact hb.below b (Finset.mem_sdiff.mp hmem).1
      · rw [← hb.data]
        exact hasData_update h.data c none

/-- What any callback keeps, if it creates a session only where there is none. -/
theorem Balanced.exec (hb : Balanced h has live) {act : DataAct}
    (hnew : ∀ c, act = .create c → has c = false) (huge : Bool) :
    ∃ live', Balanced (h.exec huge act) (act.has has) live' := by
  cases act with
  | keep => exact ⟨live, hb⟩
  | create c => exact hb.create (hnew c rfl) huge
  | delete c => exact hb.delete c huge

/-- A context with a session holds two blocks, one without holds none. -/
theorem Balanced.length_held (hb : Balanced h has live) (c : Nat) :
    (h.held c).length = if has c then 2 else 0 := by
  rw [← hb.data]
  cases hm : h.data c with
  | none => simp [held, hasData, hm]
  | some m => simpa [held, hasData, hm] using m.length_blocks

theorem Balanced.sum_held (hb : Balanced h has live) : ∀ (cs : List Nat),
    (cs.map fun c => (h.held c).length).sum = 2 * cs.countP has
  | [] => rfl
  | c :: cs => by
      rw [List.map_cons, List.sum_cons, hb.sum_held cs, hb.length_held c, List.countP_cons]
      split
      · omega
      · omega

end SessionHeap

/-! ## Programs -/

/-- The contexts whose add or connect callback has run and whose release has not. -/
def EventLoop.Holds (L : EventLoop) (c : Nat) : Prop := c ∈ L.live ∨ c ∈ L.closed

namespace EventLoop

variable {L : EventLoop} {c d : Nat}

theorem holds_add (hc : c ∈ L.queue) : (L.add c hc).Holds d ↔ d = c ∨ L.Holds d := by
  simp only [Holds, add, List.mem_append, List.mem_singleton]
  tauto

theorem holds_accept : L.accept.Holds d ↔ d = L.next ∨ L.Holds d := by
  simp only [Holds, accept, List.mem_cons]
  tauto

theorem holds_close (hc : c ∈ L.live) : (L.close c hc).Holds d ↔ L.Holds d := by
  simp only [Holds, close, List.mem_cons]
  by_cases hd : d = c
  · subst hd
    simp [hc]
  · rw [List.mem_erase_of_ne hd]
    simp [hd]

theorem Holds.release (h : L.Holds d) (hd : d ≠ c) : (L.release c).Holds d :=
  h.imp id (List.mem_erase_of_ne hd).mpr

theorem not_holds_of_queue (hc : c ∈ L.queue) : ¬ L.Holds c := fun h =>
  h.elim (not_live_of_queue hc) (not_closed_of_queue hc)

theorem not_holds_next : ¬ L.Holds L.next := fun h =>
  h.elim (fun h => Nat.lt_irrefl _ (lt_of_live h)) fun h => Nat.lt_irrefl _ (lt_of_closed h)

end EventLoop

/-- A session is created for a context that enters the loop, and a context that leaves
the loop has its session deleted. -/
structure SessionMove (act : DataAct) (L L' : EventLoop) (has has' : Nat → Bool) : Prop where
  has_eq : has' = act.has has
  enters : ∀ c, act = .create c → ¬ L.Holds c ∧ L'.Holds c
  stays : ∀ c, L.Holds c → act ≠ .delete c → L'.Holds c

namespace SessionMove

variable {L L' : EventLoop} {has has' : Nat → Bool} {c : Nat}

theorem keep (hhas : has' = has) (hloop : ∀ c, L.Holds c → L'.Holds c) :
    SessionMove .keep L L' has has' where
  has_eq := hhas
  enters _ h := nomatch h
  stays c hc _ := hloop c hc

theorem create (hhas : has' = Function.update has c true) (hc : ¬ L.Holds c)
    (hloop : ∀ d, L'.Holds d ↔ d = c ∨ L.Holds d) : SessionMove (.create c) L L' has has' where
  has_eq := hhas
  enters d hd := by
    obtain rfl := DataAct.create.inj hd
    exact ⟨hc, (hloop c).mpr (Or.inl rfl)⟩
  stays d hd _ := (hloop d).mpr (Or.inr hd)

theorem delete (hhas : has' = Function.update has c false) :
    SessionMove (.delete c) L (L.release c) has has' where
  has_eq := hhas
  enters _ h := nomatch h
  stays _ hd hne := hd.release fun h => hne (h ▸ rfl)

end SessionMove

/-- A program whose callbacks keep sessions in the contexts of its loop. -/
structure SessionProgram (σ ε β : Type) where
  step : σ → ε → σ → Prop
  loop : σ → EventLoop
  /-- `muggle_socket_ctx_get_data` -/
  session : σ → Nat → Option (NbTcpSession β)
  act : σ → ε → DataAct
  move : ∀ {s e s'}, step s e s' →
    SessionMove (act s e) (loop s) (loop s') (hasData (session s)) (hasData (session s'))

namespace SessionProgram

variable {σ ε β : Type} (P : SessionProgram σ ε β)

/-- A step of the program and what it does to the heap; the flag is that of
`muggle_memory_res_init`. -/
inductive Step : σ × SessionHeap → ε × Bool → σ × SessionHeap → Prop
  | mk {s s' : σ} {e : ε} {h : SessionHeap} {huge : Bool} (hs : P.step s e s') :
      Step (s, h) (e, huge) (s', h.exec huge (P.act s e))

/-- The heap is balanced, and all sessions are in the loop. -/
structure Keeps (x : σ × SessionHeap) : Prop where
  balanced : ∃ live, x.2.Balanced (hasData (P.session x.1)) live
  inLoop : ∀ c, hasData (P.session x.1) c = true → (P.loop x.1).Holds c

variable {P}

/-- A run of the program is one on the heap, whatever memory it gets. -/
theorem exists_run {s t : σ} {es : List ε} (hrun : Run P.step s es t) (huge : ε → Bool)
    (h₀ : SessionHeap) :
    ∃ h, Run P.Step (s, h₀) (es.map fun e => (e, huge e)) (t, h) := by
  induction hrun generalizing h₀ with
  | nil s => exact ⟨h₀, .nil _⟩
  | @cons s t u e es hs _ ih =>
      obtain ⟨h, hrest⟩ := ih (h₀.exec (huge e) (P.act s e))
      exact ⟨h, .cons (.mk hs) hrest⟩

theorem Keeps.step {x x' : σ × SessionHeap} {e : ε × Bool} (hk : P.Keeps x)
    (hs : P.Step x e x') : P.Keeps x' := by
  obtain ⟨hs⟩ := hs
  rename_i s s' e h huge
  obtain ⟨⟨live, hb⟩, hin⟩ := hk
  obtain ⟨hhas, henters, hstays⟩ := P.move hs
  refine ⟨?_, fun c hc => ?_⟩
  · rw [hhas]
    refine hb.exec (fun c hact => ?_) huge
    exact Bool.eq_false_iff.mpr fun hc => (henters c hact).1 (hin c hc)
  · have hc : (P.act s e).has (hasData (P.session s)) c = true := hhas ▸ hc
    cases hact : P.act s e with
    | keep =>
        rw [hact] at hc
        exact hstays c (hin c hc) (hact ▸ fun h => nomatch h)
    | create d =>
        by_cases hcd : c = d
        · exact (henters c (hcd ▸ hact)).2
        · rw [hact, DataAct.has, Function.update_of_ne hcd] at hc
          exact hstays c (hin c hc) (hact ▸ fun h => nomatch h)
    | delete d =>
        by_cases hcd : c = d
        · rw [hact, DataAct.has, hcd, Function.update_self] at hc
          cases hc
        · rw [hact, DataAct.has, Function.update_of_ne hcd] at hc
          exact hstays c (hin c hc) (hact ▸ fun h => hcd (DataAct.delete.inj h).symm)

/-- What the heap of a program is in the state reached: no release of a block that was
not allocated or was released before, two live blocks for each session in the loop, no
block shared, and no other. -/
structure Exact (L : EventLoop) (session : Nat → Option (NbTcpSession β)) (h : SessionHeap) :
    Prop where
  live : ∃ live, allocated h.ops = some live ∧ Owned h.held live ∧
    live.card = 2 * (L.live ++ L.closed).countP (hasData session)
  data : hasData h.data = hasData session
  inLoop : ∀ c, hasData session c = true → L.Holds c

/-- A loop without contexts leaves nothing allocated. -/
theorem Exact.freed {L : EventLoop} {session : Nat → Option (NbTcpSession β)} {h : SessionHeap}
    (hx : Exact L session h) (hlive : L.live = []) (hclosed : L.closed = []) :
    allocated h.ops = some ∅ := by
  obtain ⟨live, hops, _, hcard⟩ := hx.live
  rw [hlive, hclosed] at hcard
  rw [hops, Finset.card_eq_zero.mp hcard]

theorem Keeps.exact {x : σ × SessionHeap} (hk : P.Keeps x) :
    Exact (P.loop x.1) (P.session x.1) x.2 := by
  obtain ⟨⟨live, hb⟩, hin⟩ := hk
  have hnd : ((P.loop x.1).live ++ (P.loop x.1).closed).Nodup :=
    (List.nodup_append.mp (P.loop x.1).nodup).2.1
  have hall : ∀ c, x.2.held c ≠ [] → c ∈ (P.loop x.1).live ++ (P.loop x.1).closed := by
    intro c hc
    refine List.mem_append.mpr (hin c ?_)
    by_contra hnone
    refine hc (List.eq_nil_of_length_eq_zero ?_)
    rw [hb.length_held c, if_neg hnone]
  refine ⟨⟨live, hb.ops, hb.owned, ?_⟩, hb.data, hin⟩
  rw [hb.owned.card_eq hnd hall, hb.sum_held]

/-- In every run of such a program the heap is exact. -/
theorem exact_of_run {s₀ s : σ} {h : SessionHeap} {es : List (ε × Bool)}
    (hrun : Run P.Step (s₀, .init) es (s, h)) (hnone : ∀ c, P.session s₀ c = none) :
    Exact (P.loop s) (P.session s) h := by
  have hstart : hasData (P.session s₀) = fun _ => false := by
    funext c
    rw [hasData, hnone c]
    rfl
  have hk : P.Keeps (s, h) := by
    refine hrun.invariant (fun _ _ _ hk hs => hk.step hs) ⟨⟨∅, ?_⟩, fun c hc => ?_⟩
    · rw [hstart]
      exact SessionHeap.balanced_init
    · rw [hstart] at hc
      cases hc
  exact hk.exact

end SessionProgram

/-! ## The three programs -/

namespace TcpClient

variable {β : Type} {a : NbSysArgs} {B : BytesBuffer β} {b₀ : β} {s s' : TcpClient β}

/-- `tcp_client_on_add_ctx` creates no session if `setsockopt` fails. -/
def dataAct : ClientEvent → DataAct
  | .add c _ true => .create c
  | .release c => .delete c
  | _ => .keep

theorem Step.move {e : ClientEvent} (hs : Step a B b₀ s e s') :
    SessionMove (dataAct e) s.loop s'.loop (hasData s.session) (hasData s'.session) := by
  cases hs with
  | connected ht => exact .keep rfl fun _ => id
  | @add c ts nodelay hsend hc =>
      cases nodelay with
      | true =>
          exact .create (hasData_update s.session c _) (EventLoop.not_holds_of_queue hc)
            fun d => EventLoop.holds_add hc
      | false => exact .keep rfl fun d hd => (EventLoop.holds_add hc).mpr (Or.inr hd)
  | @timer ts hsend =>
      have hsame := sameSlot_onTimer (a := a) ts s
      exact .keep (congrArg hasData hsame.session) fun d hd => by rwa [hsame.loop]
  | send hl hi hc h =>
      have hsame := sameSlot_sendOne h
      exact .keep (congrArg hasData hsame.session) fun d hd => by rwa [hsame.loop]
  | roundDone hl hi => exact .keep rfl fun _ => id
  | message hsend hc h =>
      obtain ⟨_, hloop, _, hses⟩ := onMessage_slot h
      exact .keep (funext hses) fun d hd => by rwa [hloop]
  | close hsend hc => exact .keep rfl fun d hd => (EventLoop.holds_close hc).mpr hd
  | @release c hsend hc => exact .delete (hasData_update s.session c none)

end TcpClient

namespace TcpServer

variable {β : Type} {B : BytesBuffer β} {b₀ : β} {s s' : TcpServer β}

/-- `tcp_server_on_add_ctx` creates a session also if `setsockopt` fails,
`tcp_server_on_connect` does not. -/
def dataAct (s : TcpServer β) : ServerEvent → DataAct
  | .add c _ => if ctxType c = .tcpClient then .create c else .keep
  | .connect true => .create s.loop.next
  | .release c => .delete c
  | _ => .keep

theorem hasData_session (s : TcpServer β) (c : Nat) :
    hasData s.session c = (roleOf s c).isSome := by
  rw [roleOf, Option.isSome_map, hasData]

theorem SameConn.move (h : SameConn s s') :
    SessionMove .keep s.loop s'.loop (hasData s.session) (hasData s'.session) := by
  refine .keep (funext fun c => ?_) fun c hc => by rwa [h.loop]
  rw [hasData_session, hasData_session, h.role]

theorem Step.move {e : ServerEvent} (hs : Step B b₀ s e s') :
    SessionMove (dataAct s e) s.loop s'.loop (hasData s.session) (hasData s'.session) := by
  cases hs with
  | connected ht => exact .keep rfl fun _ => id
  | @add c nodelay hp hc =>
      cases ht : ctxType c with
      | tcpListen =>
          simp only [dataAct, onAddCtx, ht, reduceCtorEq, if_false]
          exact .keep rfl fun d hd => (EventLoop.holds_add hc).mpr (Or.inr hd)
      | tcpClient =>
          simp only [dataAct, onAddCtx, ht, if_true]
          cases nodelay with
          | true =>
              exact .create (hasData_update s.session c _) (EventLoop.not_holds_of_queue hc)
                fun d => EventLoop.holds_add hc
          | false =>
              exact .create (hasData_update s.session c _) (EventLoop.not_holds_of_queue hc)
                fun d => EventLoop.holds_add hc
  | @connect nodelay hp =>
      cases nodelay with
      | true =>
          exact .create (hasData_update s.session s.loop.next _) EventLoop.not_holds_next
            fun d => EventLoop.holds_accept
      | false => exact .keep rfl fun d hd => EventLoop.holds_accept.mpr (Or.inr hd)
  | messageNone => exact .keep rfl fun _ => id
  | message => exact .keep rfl fun _ => id
  | read hp hses => exact (readOne_spec hses _).1.move
  | parse hp hses => exact (parseOne_spec hses _).1.move
  | @close c hp hc =>
      refine .keep ?_ fun d hd => ?_
      · unfold onClose
        split
        · rfl
        · split <;> rfl
      · unfold onClose
        split
        · exact (EventLoop.holds_close hc).mpr hd
        · split <;> exact (EventLoop.holds_close hc).mpr hd
  | @release c hp hc => exact .delete (hasData_update s.session c none)

end TcpServer

namespace TcpUpstream

variable {β : Type} {B : BytesBuffer β} {b₀ : β} {s s' : TcpUpstream β}

/-- `tcp_upstream_on_connect` creates no session if `setsockopt` fails. -/
def dataAct (s : TcpUpstream β) : UpstreamEvent → DataAct
  | .connect true => .create s.loop.next
  | .release c => .delete c
  | _ => .keep

/-- A new buffer leaves the session where it is. -/
theorem hasData_setBuf {c : Nat} {ses : NbTcpSession β} (hses : s.session c = some ses) (b : β) :
    hasData (setBuf c ses b s).session = hasData s.session := by
  show hasData (Function.update s.session c _) = _
  rw [hasData_update, Function.update_eq_self_iff, hasData, hses]
  rfl

theorem hasData_readOne {c : Nat} {ses : NbTcpSession β} (hses : s.session c = some ses)
    (r : Option Chunk) : hasData (readOne B c ses r s).session = hasData s.session := by
  unfold readOne
  split
  · exact hasData_setBuf hses _
  · exact hasData_setBuf hses _
  · exact hasData_setBuf hses _

theorem hasData_parseOne {c : Nat} {ses : NbTcpSession β} (hses : s.session c = some ses) :
    hasData (parseOne B c ses s).session = hasData s.session := by
  unfold parseOne
  split
  · rename_i b shut hit
    cases shut with
    | true => exact hasData_setBuf hses b
    | false => exact hasData_setBuf hses b
  · exact hasData_setBuf hses _
  · exact hasData_setBuf hses _

theorem Step.move {e : UpstreamEvent} (hs : Step B b₀ s e s') :
    SessionMove (dataAct s e) s.loop s'.loop (hasData s.session) (hasData s'.session) := by
  cases hs with
  | add hp hc => exact .keep rfl fun d hd => (EventLoop.holds_add hc).mpr (Or.inr hd)
  | @connect nodelay hp =>
      cases nodelay with
      | true =>
          exact .create (hasData_update s.session s.loop.next _) EventLoop.not_holds_next
            fun d => EventLoop.holds_accept
      | false => exact .keep rfl fun d hd => EventLoop.holds_accept.mpr (Or.inr hd)
  | messageNone => exact .keep rfl fun _ => id
  | message => exact .keep rfl fun _ => id
  | @read c ses r hp hses =>
      exact .keep (hasData_readOne hses r) fun d hd => by rwa [readOne_loop]
  | @parse c ses hp hses =>
      exact .keep (hasData_parseOne hses) fun d hd => by rwa [parseOne_loop]
  | close hp hc => exact .keep rfl fun d hd => (EventLoop.holds_close hc).mpr hd
  | @release c hp hc => exact .delete (hasData_update s.session c none)

end TcpUpstream

variable {β : Type} (a : NbSysArgs) (B : BytesBuffer β) (b₀ : β)

def TcpClient.sessions : SessionProgram (TcpClient β) ClientEvent β :=
  ⟨Step a B b₀, loop, session, fun _ => dataAct, Step.move⟩

def TcpServer.sessions : SessionProgram (TcpServer β) ServerEvent β :=
  ⟨Step B b₀, loop, session, dataAct, Step.move⟩

def TcpUpstream.sessions : SessionProgram (TcpUpstream β) UpstreamEvent β :=
  ⟨Step B b₀, loop, session, dataAct, Step.move⟩

/-- In every run of the client, of the server and of the upstream the heap is exact,
whichever sessions get huge pages. -/
theorem session_memory_of_run :
    (∀ ts T es s h, Run (TcpClient.sessions a B b₀).Step (TcpClient.start ts T, .init) es (s, h) →
      SessionProgram.Exact s.loop s.session h) ∧
    (∀ es s h, Run (TcpServer.sessions B b₀).Step (TcpServer.start, .init) es (s, h) →
      SessionProgram.Exact s.loop s.session h) ∧
    (∀ es s h, Run (TcpUpstream.sessions B b₀).Step (TcpUpstream.start, .init) es (s, h) →
      SessionProgram.Exact s.loop s.session h) :=
  ⟨fun _ _ _ _ _ hrun => SessionProgram.exact_of_run hrun fun _ => rfl,
    fun _ _ _ hrun => SessionProgram.exact_of_run hrun fun _ => rfl,
    fun _ _ _ hrun => SessionProgram.exact_of_run hrun fun _ => rfl⟩

/-- The client connects and loses the connection; after the release nothing is left. -/
theorem session_memory_after_release : ∃ s h, Run (TcpClient.sessions TcpClient.oneMessage
      (ringBuffer netBenchTcpBufSize) (emptyRing netBenchTcpBufSize fun _ => 0)).Step
      (TcpClient.start ⟨0, 0⟩ [], .init)
      [(.add 0 ⟨0, 0⟩ true, true), (.close 0, true), (.release 0, true)] (s, h) ∧
    h.ops.length = 4 ∧ allocated h.ops = some ∅ := by
  obtain ⟨s, h, hrun, hops, hlive, hclosed⟩ : ∃ s h, Run (TcpClient.sessions TcpClient.oneMessage
      (ringBuffer netBenchTcpBufSize) (emptyRing netBenchTcpBufSize fun _ => 0)).Step
      (TcpClient.start ⟨0, 0⟩ [], .init)
      [(.add 0 ⟨0, 0⟩ true, true), (.close 0, true), (.release 0, true)] (s, h) ∧
      h.ops.length = 4 ∧ s.loop.live = [] ∧ s.loop.closed = [] :=
    ⟨_, _, .cons (.mk (.add rfl List.mem_cons_self)) (.cons (.mk (.close rfl List.mem_cons_self))
      (.cons (.mk (.release rfl List.mem_cons_self)) (.nil _))), rfl, rfl, rfl⟩
  exact ⟨s, h, hrun, hops, ((session_memory_of_run _ _ _).1 _ _ _ _ _ hrun).freed hlive hclosed⟩

end NetBench
