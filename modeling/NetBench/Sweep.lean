/-
# `NetBench.Sweep` — all message sizes in one process

`main` of the TCP client calls `run` once for each size of `msg_size_arr`, or once with the
size it was given; without a host and a port to connect to, each call returns at once.  Here
the process of `NetBench.ClientProcess` keeps the clients of the runs that have returned, so
that one can say what it has written altogether.

The sizes are different, and a message carries the size of its run: the messages of one run
are never those of another.  So the counts of a single run (`NetBench.Retries`) are those of
the whole process (`swept_of_run`).
-/
import NetBench.ChainCounts
import NetBench.ClientProcess

namespace NetBench

open Lib

/-! ## The calls of `main` -/

/-- `msg_size_arr`. -/
def msgSizeArr : List UInt32 := [16, 32, 64, 128, 256, 512, 1024]

namespace NbSysArgs

/-- The arguments of the calls of `run`. -/
def mainCalls (args : NbSysArgs) : List NbSysArgs :=
  if args.msgSize = 0 then msgSizeArr.map fun size => { args with msgSize := size } else [args]

end NbSysArgs

/-! ## The process and what it has done -/

/-- A process, with the clients of the runs that have returned. -/
structure Sweep (β : Type) where
  proc : ClientProcess β
  ended : List (Running β)

namespace Sweep

variable {β : Type} (u : ConnArgs) (B : BytesBuffer β) (b₀ : β)

def start (args : NbSysArgs) : Sweep β := ⟨.start args.mainCalls, []⟩

/-- A step of the process. -/
inductive Step : Sweep β → ProcessEvent → Sweep β → Prop
  | finish {x : Sweep β} {p : ClientProcess β} {r : Running β} {k : Nat}
      (hcur : x.proc.cur = some r) (hs : ClientProcess.Step u B b₀ x.proc (.finish k) p) :
      Step x (.finish k) ⟨p, x.ended ++ [r]⟩
  | other {x : Sweep β} {p : ClientProcess β} {e : ProcessEvent} (he : ∀ k, e ≠ .finish k)
      (hs : ClientProcess.Step u B b₀ x.proc e p) : Step x e ⟨p, x.ended⟩

/-- All runs so far. -/
def runs (x : Sweep β) : List (Running β) := x.ended ++ x.proc.cur.toList

/-- The messages that were written in full, run by run. -/
def written (x : Sweep β) : List MsgKey := x.runs.flatMap fun r => writtenKeys r.client.log

/-- The client of `r` is in a state that `run` leads to. -/
def Ran (r : Running β) : Prop :=
  ∃ (ts : Timespec) (m T : Bytes) (es : List ClientEvent), m.length = r.args.tableBytes.toNat ∧
    r.args.prepare m = some T ∧ Run (TcpClient.Step r.args B b₀) (.start ts T) es r.client

/-- The calls are made in their order, and each makes a run of the client, unless it gets no
event loop. -/
structure Swept (calls : List NbSysArgs) (es : List ProcessEvent) (x : Sweep β) : Prop where
  order : (x.runs.map Running.args ++ x.proc.todo.filter (NbSysArgs.admitted u)).Sublist
    (calls.filter (NbSysArgs.admitted u))
  all : .noLoop ∉ es → x.runs.map Running.args ++ x.proc.todo.filter (NbSysArgs.admitted u) =
    calls.filter (NbSysArgs.admitted u)
  ran : ∀ r ∈ x.runs, Ran B b₀ r
  exit : ∀ r ∈ x.ended, .exit ∈ r.client.log

variable {u B b₀} {calls : List NbSysArgs} {es : List ProcessEvent} {x y : Sweep β}

theorem cur_addCtx (g : Nat) (p : ClientProcess β) : (ClientProcess.addCtx g p).cur = p.cur := by
  unfold ClientProcess.addCtx
  split
  · rfl
  · rfl

theorem todo_addCtx (g : Nat) (p : ClientProcess β) :
    (ClientProcess.addCtx g p).todo = p.todo := by
  unfold ClientProcess.addCtx
  split
  · rfl
  · rfl

/-- The client of the current run makes a step. -/
theorem Ran.step {r : Running β} (h : Ran B b₀ r) {e : ClientEvent} {s : TcpClient β}
    (hs : TcpClient.Step r.args B b₀ r.client e s) : Ran B b₀ { r with client := s } := by
  obtain ⟨ts, m, T, es, hm, hT, hrun⟩ := h
  exact ⟨ts, m, T, es ++ [e], hm, hT, hrun.snoc hs⟩

/-- What a step does to the arguments of the runs and of the calls to come. -/
theorem Swept.of_args (h : Swept u B b₀ calls es x) {e : ProcessEvent}
    (hargs : y.runs.map Running.args ++ y.proc.todo.filter (NbSysArgs.admitted u) =
      x.runs.map Running.args ++ x.proc.todo.filter (NbSysArgs.admitted u))
    (hran : ∀ r ∈ y.runs, Ran B b₀ r) (hexit : ∀ r ∈ y.ended, .exit ∈ r.client.log) :
    Swept u B b₀ calls (es ++ [e]) y where
  order := hargs ▸ h.order
  all hno := hargs ▸ h.all fun hmem => hno (List.mem_append_left _ hmem)
  ran := hran
  exit := hexit

/-- The current run goes on with another client state. -/
theorem Swept.current {e' : ProcessEvent} (h : Swept u B b₀ calls es x) {r : Running β}
    (hcur : x.proc.cur = some r) {e : ClientEvent} {s : TcpClient β}
    (hs : TcpClient.Step r.args B b₀ r.client e s)
    {p : ClientProcess β} (hp : p.cur = some { r with client := s })
    (htodo : p.todo = x.proc.todo) :
    Swept u B b₀ calls (es ++ [e']) ⟨p, x.ended⟩ := by
  have hruns : x.runs = x.ended ++ [r] := by rw [runs, hcur, Option.toList_some]
  have hnew : runs ⟨p, x.ended⟩ = x.ended ++ [{ r with client := s }] := by
    rw [runs, hp, Option.toList_some]
  refine h.of_args ?_ ?_ h.exit
  · rw [hnew, hruns, List.map_append, List.map_append, htodo]
    rfl
  · intro r' hr'
    rw [hnew] at hr'
    rcases List.mem_append.mp hr' with hr' | hr'
    · exact h.ran r' (List.mem_append_left _ hr')
    · obtain rfl := List.mem_singleton.mp hr'
      exact (h.ran r (hruns ▸ List.mem_append_right _ List.mem_cons_self)).step hs

/-- A step that leaves the runs and the calls alone. -/
theorem Swept.of_same {e : ProcessEvent} (h : Swept u B b₀ calls es x) {p : ClientProcess β}
    (hcur : p.cur = x.proc.cur) (htodo : p.todo.filter (NbSysArgs.admitted u) =
      x.proc.todo.filter (NbSysArgs.admitted u)) :
    Swept u B b₀ calls (es ++ [e]) ⟨p, x.ended⟩ := by
  have hruns : runs ⟨p, x.ended⟩ = x.runs := by rw [runs, runs, hcur]
  exact h.of_args (by rw [hruns, htodo]) (hruns ▸ h.ran) h.exit

/-- A call that gets no event loop is missing from the runs. -/
theorem Swept.skip (h : Swept u B b₀ calls es x) {a : NbSysArgs} {todo : List NbSysArgs}
    (htodo : x.proc.todo = a :: todo) :
    Swept u B b₀ calls (es ++ [.noLoop]) ⟨{ x.proc with todo := todo }, x.ended⟩ where
  order := by
    refine List.Sublist.trans ?_ h.order
    refine (List.Sublist.refl _).append (List.Sublist.filter _ ?_)
    rw [htodo]
    exact List.sublist_cons_self a todo
  all hno := absurd (List.mem_append_right _ List.mem_cons_self) hno
  ran := h.ran
  exit := h.exit

theorem Swept.step (h : Swept u B b₀ calls es x) {e : ProcessEvent} (hs : Step u B b₀ x e y) :
    Swept u B b₀ calls (es ++ [e]) y := by
  cases hs with
  | @finish p r k hcur hs =>
      cases hs with
      | @finish r' k hcur' hsend hexit hk =>
          obtain rfl := Option.some.inj (hcur.symm.trans hcur')
          have hruns : x.runs = x.ended ++ [r] := by rw [runs, hcur, Option.toList_some]
          have hnew : ∀ p : ClientProcess β, p.cur = none → runs ⟨p, x.ended ++ [r]⟩ = x.runs := by
            intro p hp
            rw [runs, hp, Option.toList_none, List.append_nil, hruns]
          refine h.of_args ?_ ?_ fun r' hr' => ?_
          · rw [hnew _ rfl]
          · rw [hnew _ rfl]
            exact h.ran
          rcases List.mem_append.mp hr' with hr' | hr'
          · exact h.exit r' hr'
          · obtain rfl := List.mem_singleton.mp hr'
            exact hexit
  | @other p e he hs =>
      cases hs with
      | @call a todo ts m T hcur htodo hadm hm hT =>
          have hruns : x.runs = x.ended := by rw [runs, hcur, Option.toList_none, List.append_nil]
          refine h.of_args ?_ ?_ h.exit
          · rw [htodo, List.filter_cons, if_pos hadm, hruns, runs, List.map_append,
              List.append_assoc]
            rfl
          · intro r hr
            rcases List.mem_append.mp hr with hr | hr
            · exact h.ran r (hruns ▸ hr)
            · obtain rfl := List.mem_singleton.mp hr
              exact ⟨ts, m, T, [], hm, hT, .nil _⟩
      | @refuse a todo hcur htodo hadm =>
          refine h.of_same rfl ?_
          rw [htodo, List.filter_cons, if_neg]
          rw [hadm]
          exact Bool.false_ne_true
      | noLoop hcur htodo hadm => exact h.skip htodo
      | client hcur hs hne => exact h.current hcur hs rfl rfl
      | thread hcur hs => exact h.current hcur hs (cur_addCtx _ _) (todo_addCtx _ _)
      | orphan hg => exact h.of_same (cur_addCtx _ _) (by rw [todo_addCtx])
      | finish => exact absurd rfl (he _)

/-- No two runs have messages of one size. -/
theorem Swept.nodup (h : Swept u B b₀ calls es x) (hcalls : (calls.map NbSysArgs.msgSize).Nodup) :
    (x.runs.map fun r => r.args.msgSize).Nodup := by
  have hsub : (x.runs.map Running.args).Sublist calls :=
    (List.sublist_append_left _ _).trans (h.order.trans List.filter_sublist)
  have hnodup := hcalls.sublist (hsub.map NbSysArgs.msgSize)
  rw [List.map_map] at hnodup
  exact hnodup

/-- What a run says about its messages. -/
theorem Ran.resends {r : Running β} (ha : r.args.Fits) (h : Ran B b₀ r) :
    ∃ T, r.args.Prepared T ∧ TcpClient.Sends r.args T r.client ∧
      Resends r.args T r.client.log (TcpClient.done r.args r.client) := by
  obtain ⟨ts, m, T, es, hm, hprep, hrun⟩ := h
  have hT := NbSysArgs.prepared_of_prepare ha.sized hm hprep
  exact ⟨T, hT, TcpClient.resends_of_run ha hT hrun⟩

end Sweep

end NetBench
