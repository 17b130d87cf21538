/-
# `NetBench.RecordPipe` — from `NETBENCH_RECORD` to the file

`record.c` and the macro of `record.h`.  Each thread has a ring.  A record is made in a
cell that `nb_record_prepare` returns, one assignment after the other, and is handed on by
`nb_record_commit`; one more thread takes the records out of the rings and calls
`nb_ts_record_callback` for each.  A step is taken by one of the threads, so that a run is
any interleaving.

The rings are those of muggle (`NetBench.MaRing`), any ring that is a FIFO of whole records.

    every run writes the file of a program that makes its records one at a time; they
    interleave what the threads committed, each record whole        (`exec_of_pipe`)
    once everything is read, the loader has the records of all threads, each once
                                                                    (`load_of_pipe`)
-/
import NetBench.Lib.Lanes
import NetBench.Lib.Run
import NetBench.MaRing
import NetBench.RecordRoundTrip

namespace NetBench

open Lib Lib.Csv

/-! ## The macro -/

/-- The arguments of `NETBENCH_RECORD`. -/
structure RecordCall where
  uid : UInt32
  seq : UInt32
  msgsize : UInt32
  strAction : Text
  deriving DecidableEq

/-- The record that the macro makes, when the clock reads `sec` and `nsec`. -/
def RecordCall.record (call : RecordCall) (sec nsec : Int64) : NbTsRecord :=
  ⟨sec, nsec, call.uid, call.seq, call.msgsize, call.strAction⟩

/-- The fields that the macro assigns after `timespec_get`. -/
inductive RecordField where
  | userId
  | id
  | msgSize
  | action
  deriving DecidableEq, Repr

/-- The assignments, in order. -/
def recordFields : List RecordField := [.userId, .id, .msgSize, .action]

/-- One assignment. -/
def RecordField.assign (call : RecordCall) (r : NbTsRecord) : RecordField → NbTsRecord
  | .userId => { r with userId := call.uid }
  | .id => { r with id := call.seq }
  | .msgSize => { r with msgSize := call.msgsize }
  | .action => { r with action := call.strAction }

/-- The field has the value that the call gives it. -/
def RecordField.Assigned (call : RecordCall) (r : NbTsRecord) : RecordField → Prop
  | .userId => r.userId = call.uid
  | .id => r.id = call.seq
  | .msgSize => r.msgSize = call.msgsize
  | .action => r.action = call.strAction

namespace RecordField

variable {call : RecordCall} {r : NbTsRecord} {f g : RecordField}

theorem assigned_assign (call : RecordCall) (r : NbTsRecord) (f : RecordField) :
    f.Assigned call (f.assign call r) := by
  cases f <;> rfl

theorem assigned_assign_of_ne (hne : g ≠ f) (h : g.Assigned call r) :
    g.Assigned call (f.assign call r) := by
  cases f <;> cases g <;> first | exact absurd rfl hne | exact h

@[simp] theorem tvSec_assign : (f.assign call r).tvSec = r.tvSec := by
  cases f <;> rfl

@[simp] theorem tvNsec_assign : (f.assign call r).tvNsec = r.tvNsec := by
  cases f <;> rfl

/-- When all fields are assigned, nothing is left of what was in the cell. -/
theorem eq_record (h : ∀ f : RecordField, f.Assigned call r) :
    r = call.record r.tvSec r.tvNsec := by
  obtain ⟨sec, nsec, uid, id, size, action⟩ := r
  rw [RecordCall.record, NbTsRecord.mk.injEq]
  exact ⟨rfl, rfl, h .userId, h .id, h .msgSize, h .action⟩

end RecordField

/-- Where a thread stands. -/
inductive RecordPc where
  /-- outside of the macro -/
  | idle
  /-- before `timespec_get`, with `r` pointing to a cell -/
  | timespecGet (c : Nat) (call : RecordCall)
  /-- before some assignments, and `nb_record_commit` -/
  | assign (c : Nat) (call : RecordCall) (todo : List RecordField)
  deriving DecidableEq

/-- A thread and its ring. -/
structure Recorder (β : Type) where
  pc : RecordPc
  ring : β

/-- What a thread does next. -/
inductive RecordOp where
  /-- `nb_record_prepare` returns -/
  | prepare (call : RecordCall)
  | timespecGet (sec nsec : Int64)
  | assign
  | commit
  deriving DecidableEq

namespace Recorder

variable {β : Type} (M : MaRing NbTsRecord β)

/-- One step of a thread, or `none` if it cannot happen. -/
def exec (r : Recorder β) : RecordOp → Option (Recorder β)
  | .prepare call =>
      match r.pc with
      | .idle => (M.alloc r.ring).map fun x => { pc := .timespecGet x.1 call, ring := x.2 }
      | _ => none
  | .timespecGet sec nsec =>
      match r.pc with
      | .timespecGet c call =>
          some { pc := .assign c call recordFields
                 ring := M.modify r.ring c fun x => { x with tvSec := sec, tvNsec := nsec } }
      | _ => none
  | .assign =>
      match r.pc with
      | .assign c call (f :: todo) =>
          some { pc := .assign c call todo, ring := M.modify r.ring c fun x => f.assign call x }
      | _ => none
  | .commit =>
      match r.pc with
      | .assign _ _ [] => some { pc := .idle, ring := M.move r.ring }
      | _ => none

/-- The cases of a step. -/
inductive Step (r : Recorder β) : RecordOp → Recorder β → Prop
  | prepare {c call q} (hpc : r.pc = .idle) (halloc : M.alloc r.ring = some (c, q)) :
      Step r (.prepare call) { pc := .timespecGet c call, ring := q }
  | timespecGet {c call sec nsec} (hpc : r.pc = .timespecGet c call) :
      Step r (.timespecGet sec nsec)
        { pc := .assign c call recordFields
          ring := M.modify r.ring c fun x => { x with tvSec := sec, tvNsec := nsec } }
  | assign {c call f todo} (hpc : r.pc = .assign c call (f :: todo)) :
      Step r .assign
        { pc := .assign c call todo, ring := M.modify r.ring c fun x => f.assign call x }
  | commit {c call} (hpc : r.pc = .assign c call []) :
      Step r .commit { pc := .idle, ring := M.move r.ring }

/-- The cell that `r` points to. -/
def slot (r : Recorder β) : Option Nat :=
  match r.pc with
  | .idle => none
  | .timespecGet c _ => some c
  | .assign c _ _ => some c

/-- The record for which the clock was read and that is not committed. -/
def pending (r : Recorder β) : List NbTsRecord :=
  match r.pc with
  | .assign c call _ => [call.record (M.load r.ring c).tvSec (M.load r.ring c).tvNsec]
  | _ => []

variable {M} {contents : β → List NbTsRecord} {Owns : β → Nat → Prop} {cap : Nat}
variable {r r' : Recorder β} {op : RecordOp}

theorem step_of_exec (h : exec M r op = some r') : Step M r op r' := by
  cases op with
  | prepare call =>
      simp only [exec] at h
      split at h
      · rename_i hpc
        obtain ⟨⟨c, q⟩, halloc, rfl⟩ := Option.map_eq_some_iff.mp h
        exact .prepare hpc halloc
      · exact nomatch h
  | timespecGet sec nsec =>
      simp only [exec] at h
      split at h
      · rename_i hpc
        exact Option.some.inj h ▸ .timespecGet hpc
      · exact nomatch h
  | assign =>
      simp only [exec] at h
      split at h
      · rename_i hpc
        exact Option.some.inj h ▸ .assign hpc
      · exact nomatch h
  | commit =>
      simp only [exec] at h
      split at h
      · rename_i hpc
        exact Option.some.inj h ▸ .commit hpc
      · exact nomatch h

/-! ## One thread -/

/-- The cell of the record in the making belongs to the thread and has the values that are
assigned already; it is one of the `cap` cells. -/
structure Kept (M : MaRing NbTsRecord β) (contents : β → List NbTsRecord)
    (Owns : β → Nat → Prop) (cap : Nat) (r : Recorder β) : Prop where
  owned : ∀ c, r.slot = some c → Owns r.ring c
  assigned : ∀ c call todo, r.pc = .assign c call todo →
    ∀ f ∉ todo, f.Assigned call (M.load r.ring c)
  room : (contents r.ring).length + r.slot.toList.length ≤ cap

/-- The record that the clock is read for. -/
def made (r : Recorder β) : RecordOp → List NbTsRecord
  | .timespecGet sec nsec =>
      match r.pc with
      | .timespecGet _ call => [call.record sec nsec]
      | _ => []
  | .prepare _ => []
  | .assign => []
  | .commit => []

theorem kept_idle {q : β} (hq : contents q = []) : Kept M contents Owns cap ⟨.idle, q⟩ where
  owned _ h := nomatch h
  assigned _ _ _ h := nomatch h
  room := by
    show (contents q).length + 0 ≤ cap
    rw [hq]
    exact Nat.zero_le _

/-- A write into the cell of the record in the making. -/
theorem Kept.modify (hM : M.Fifo contents Owns cap) (h : Kept M contents Owns cap r) {c : Nat}
    {call : RecordCall} {todo : List RecordField} {g : NbTsRecord → NbTsRecord}
    (hc : r.slot = some c) (hg : ∀ f ∉ todo, f.Assigned call (g (M.load r.ring c))) :
    Kept M contents Owns cap ⟨.assign c call todo, M.modify r.ring c g⟩ := by
  obtain ⟨hcont, howns, hload⟩ := hM.modify (h.owned c hc) g
  refine ⟨?_, ?_, ?_⟩
  · rintro x hx
    exact Option.some.inj hx ▸ howns
  · rintro x call' todo' hx f hf
    cases hx
    rw [hload]
    exact hg f hf
  · have hroom := h.room
    rw [hc] at hroom
    rw [hcont]
    exact hroom

theorem Kept.step (hM : M.Fifo contents Owns cap) (h : Kept M contents Owns cap r)
    (hs : Step M r op r') : Kept M contents Owns cap r' := by
  cases hs with
  | @prepare c call q hpc halloc =>
      obtain ⟨hlt, hcont, howns⟩ := hM.alloc halloc
      refine ⟨?_, nofun, ?_⟩
      · intro x hx
        cases hx
        exact howns
      · show (contents q).length + 1 ≤ cap
        rw [hcont]
        exact hlt
  | @timespecGet c call sec nsec hpc =>
      have hc : r.slot = some c := by rw [slot, hpc]
      refine h.modify hM hc ?_
      intro f hf
      exact absurd (by cases f <;> decide) hf
  | @assign c call f todo hpc =>
      have hc : r.slot = some c := by rw [slot, hpc]
      refine h.modify hM hc ?_
      intro g hg
      by_cases hgf : g = f
      · obtain rfl := hgf
        exact RecordField.assigned_assign call _ g
      · refine RecordField.assigned_assign_of_ne hgf (h.assigned _ _ _ hpc g ?_)
        intro hmem
        rcases List.mem_cons.mp hmem with heq | hmem
        · exact hgf heq
        · exact hg hmem
  | @commit c call hpc =>
      have hc : r.slot = some c := by rw [slot, hpc]
      refine ⟨nofun, nofun, ?_⟩
      have hroom := h.room
      rw [hc] at hroom
      show (contents (M.move r.ring)).length + 0 ≤ cap
      rw [hM.move (h.owned c hc), List.length_append]
      exact hroom

/-- The reading thread takes the first record out. -/
theorem Kept.callback (hM : M.Fifo contents Owns cap) (h : Kept M contents Owns cap r)
    {x : NbTsRecord} {q : β} (hread : M.read r.ring = some (x, q)) :
    Kept M contents Owns cap { r with ring := q } := by
  obtain ⟨hcont, hkeep⟩ := hM.read hread
  refine ⟨?_, ?_, ?_⟩
  · intro c hc
    exact (hkeep c (h.owned c hc)).1
  · intro c call todo hpc f hf
    rw [(hkeep c (h.owned c (by rw [slot, show r.pc = _ from hpc]))).2]
    exact h.assigned c call todo hpc f hf
  · have hroom := h.room
    rw [hcont, List.length_cons] at hroom
    show (contents q).length + r.slot.toList.length ≤ cap
    omega

theorem pending_of_assign {c : Nat} {call : RecordCall} {todo : List RecordField}
    (h : r.pc = .assign c call todo) :
    r.pending M = [call.record (M.load r.ring c).tvSec (M.load r.ring c).tvNsec] := by
  rw [pending, h]

theorem pending_of_not_assign (h : ∀ c call todo, r.pc ≠ .assign c call todo) :
    r.pending M = [] := by
  rw [pending]
  split
  · rename_i c call todo hpc
    exact absurd hpc (h c call todo)
  · rfl

/-- Taking a record out leaves the one in the making. -/
theorem Kept.pending_callback (hM : M.Fifo contents Owns cap) (h : Kept M contents Owns cap r)
    {x : NbTsRecord} {q : β} (hread : M.read r.ring = some (x, q)) :
    ({ r with ring := q } : Recorder β).pending M = r.pending M := by
  obtain ⟨_, hkeep⟩ := hM.read hread
  obtain ⟨pc, ring⟩ := r
  cases pc with
  | idle => rfl
  | timespecGet c call => rfl
  | assign c call todo =>
      rw [pending_of_assign rfl, pending_of_assign rfl, (hkeep c (h.owned c rfl)).2]

/-- A step hands on what it made, and nothing else. -/
theorem Kept.contents_step (hM : M.Fifo contents Owns cap) (h : Kept M contents Owns cap r)
    (hs : Step M r op r') :
    contents r'.ring ++ r'.pending M = contents r.ring ++ r.pending M ++ made r op := by
  cases hs with
  | @prepare c call q hpc halloc =>
      rw [pending_of_not_assign (r := r) (by rw [hpc]; exact nofun), made, List.append_nil,
        List.append_nil, pending_of_not_assign (r := ⟨.timespecGet c call, q⟩) nofun,
        List.append_nil, (hM.alloc halloc).2.1]
  | @timespecGet c call sec nsec hpc =>
      obtain ⟨hcont, _, hload⟩ := hM.modify (h.owned c (by rw [slot, hpc]))
        fun x => { x with tvSec := sec, tvNsec := nsec }
      rw [pending_of_assign rfl, pending_of_not_assign (r := r) (by rw [hpc]; exact nofun), made, hpc]
      dsimp only
      rw [hcont, hload, List.append_nil]
  | @assign c call f todo hpc =>
      obtain ⟨hcont, _, hload⟩ := hM.modify (h.owned c (by rw [slot, hpc])) fun x => f.assign call x
      rw [pending_of_assign rfl, pending_of_assign hpc, made]
      dsimp only
      rw [hcont, hload, RecordField.tvSec_assign, RecordField.tvNsec_assign, List.append_nil]
  | @commit c call hpc =>
      have hcell := RecordField.eq_record fun f => h.assigned _ _ _ hpc f List.not_mem_nil
      rw [pending_of_assign hpc, pending_of_not_assign (r := ⟨.idle, _⟩) nofun, made, ← hcell, List.append_nil,
        List.append_nil]
      exact hM.move (h.owned c (by rw [slot, hpc]))

theorem Kept.length_step (hM : M.Fifo contents Owns cap) (h : Kept M contents Owns cap r)
    (hs : Step M r op r') : (contents r'.ring).length =
      (contents r.ring).length + if op = .commit then 1 else 0 := by
  cases hs with
  | prepare hpc halloc =>
      dsimp only
      rw [(hM.alloc halloc).2.1]
      rfl
  | timespecGet hpc =>
      dsimp only
      rw [(hM.modify (h.owned _ (by rw [slot, hpc])) _).1]
      rfl
  | assign hpc =>
      dsimp only
      rw [(hM.modify (h.owned _ (by rw [slot, hpc])) _).1]
      rfl
  | commit hpc =>
      dsimp only
      rw [hM.move (h.owned _ (by rw [slot, hpc])), List.length_append]
      rfl

end Recorder

/-! ## All threads -/

variable {κ : Type*} [DecidableEq κ] {β : Type}

/-- What happens next, and in which thread. -/
inductive PipeEvent (κ : Type*) where
  | thread (k : κ) (op : RecordOp)
  /-- the reading thread takes a record out of the ring of `k` -/
  | callback (k : κ)
  deriving DecidableEq

structure RecordPipe (κ : Type*) (β : Type) where
  recorder : κ → Recorder β
  fs : FileSystem

/-- `nb_record_inner_callback`, with the callback that `nb_init_components` sets. -/
def nbRecordInnerCallback (filepath : Text) (tid : UInt64) (data : NbTsRecord) (fs : FileSystem) :
    FileSystem :=
  nbTsRecordCallback filepath fs ⟨tid, data⟩

namespace RecordPipe

variable (M : MaRing NbTsRecord β) (tid : κ → UInt64) (filepath : Text)

/-- Each thread has a ring. -/
def start (rings : κ → β) (fs : FileSystem) : RecordPipe κ β where
  recorder k := ⟨.idle, rings k⟩
  fs := fs

/-- One step, or `none` if it cannot happen. -/
def exec (s : RecordPipe κ β) : PipeEvent κ → Option (RecordPipe κ β)
  | .thread k op =>
      ((s.recorder k).exec M op).map fun r =>
        { s with recorder := Function.update s.recorder k r }
  | .callback k =>
      (M.read (s.recorder k).ring).map fun x =>
        { recorder := Function.update s.recorder k { s.recorder k with ring := x.2 }
          fs := nbRecordInnerCallback filepath (tid k) x.1 s.fs }

/-- The steps as a relation. -/
def Step (s : RecordPipe κ β) (e : PipeEvent κ) (t : RecordPipe κ β) : Prop :=
  exec M tid filepath s e = some t

/-- Nothing is in the making, and there is nothing to read. -/
def Drained (s : RecordPipe κ β) : Prop :=
  ∀ k, (s.recorder k).pc = .idle ∧ M.read (s.recorder k).ring = none

variable {M tid filepath} {contents : β → List NbTsRecord} {Owns : β → Nat → Prop} {cap : Nat}
variable {s t : RecordPipe κ β} {e : PipeEvent κ} {k : κ}

/-- A step of a thread or of the reading thread. -/
theorem step_cases (h : Step M tid filepath s e t) :
    (∃ k op r, e = .thread k op ∧ Recorder.Step M (s.recorder k) op r ∧
      t = { s with recorder := Function.update s.recorder k r }) ∨
    (∃ k x q, e = .callback k ∧ M.read (s.recorder k).ring = some (x, q) ∧
      t = { recorder := Function.update s.recorder k { s.recorder k with ring := q }
            fs := nbTsRecordCallback filepath s.fs ⟨tid k, x⟩ }) := by
  cases e with
  | thread k op =>
      obtain ⟨r, hr, rfl⟩ := Option.map_eq_some_iff.mp h
      exact Or.inl ⟨k, op, r, rfl, Recorder.step_of_exec hr, rfl⟩
  | callback k =>
      obtain ⟨⟨x, q⟩, hread, rfl⟩ := Option.map_eq_some_iff.mp h
      exact Or.inr ⟨k, x, q, rfl, hread, rfl⟩

/-! ## The records of a run -/

/-- The calls that the threads are in, and the records so far, in the order in which the
clock was read for them. -/
structure Stamps (κ : Type*) where
  call : κ → Option RecordCall
  log : List (κ × NbTsRecord)

def Stamps.step (x : Stamps κ) : PipeEvent κ → Stamps κ
  | .thread k (.prepare call) => { x with call := Function.update x.call k (some call) }
  | .thread k (.timespecGet sec nsec) =>
      { x with log := x.log ++ ((x.call k).map fun call => (k, call.record sec nsec)).toList }
  | _ => x

def stamps (es : List (PipeEvent κ)) : Stamps κ := es.foldl Stamps.step ⟨fun _ => none, []⟩

/-- The record of each call for which the clock was read: the arguments of the call and
that reading. -/
def stamped (es : List (PipeEvent κ)) : List (κ × NbTsRecord) := (stamps es).log

/-- The number of records that a thread committed. -/
def commits (k : κ) (es : List (PipeEvent κ)) : Nat := es.count (.thread k .commit)

theorem stamps_snoc (es : List (PipeEvent κ)) (e : PipeEvent κ) :
    stamps (es ++ [e]) = (stamps es).step e := List.foldl_concat ..

theorem commits_snoc (k : κ) (es : List (PipeEvent κ)) (e : PipeEvent κ) :
    commits k (es ++ [e]) = commits k es + if e = .thread k .commit then 1 else 0 := by
  rw [commits, List.count_append, List.count_singleton]
  simp only [beq_iff_eq]
  rfl

/-- What a thread is in, and what it made. -/
theorem made_eq_stamps {x : Stamps κ} {r : Recorder β}
    (hcall : ∀ c call, r.pc = .timespecGet c call → x.call k = some call) {op : RecordOp}
    {r' : Recorder β} (hs : Recorder.Step M r op r') :
    (x.step (.thread k op)).log = x.log ++ (r.made op).map (k, ·) ∧
      ∀ c call, r'.pc = .timespecGet c call → (x.step (.thread k op)).call k = some call := by
  cases hs with
  | prepare hpc halloc =>
      refine ⟨(List.append_nil _).symm, ?_⟩
      intro c call h
      cases h
      exact Function.update_self ..
  | timespecGet hpc =>
      refine ⟨?_, nofun⟩
      rw [Stamps.step, hcall _ _ hpc, Recorder.made, hpc]
      rfl
  | assign hpc => exact ⟨(List.append_nil _).symm, nofun⟩
  | commit hpc => exact ⟨(List.append_nil _).symm, nofun⟩

/-- The call of another thread. -/
theorem call_step_of_ne {x : Stamps κ} {op : RecordOp} {k k' : κ} (hk : k' ≠ k) :
    (x.step (.thread k op)).call k' = x.call k' := by
  cases op with
  | prepare => exact Function.update_of_ne hk ..
  | timespecGet => rfl
  | assign => rfl
  | commit => rfl

/-- The calls that the threads have a cell for are those in `stamps`. -/
def Called (es : List (PipeEvent κ)) (s : RecordPipe κ β) : Prop :=
  ∀ k c call, (s.recorder k).pc = .timespecGet c call → (stamps es).call k = some call

theorem Called.step {es : List (PipeEvent κ)} (h : Called es s) (hs : Step M tid filepath s e t) :
    Called (es ++ [e]) t := by
  rcases step_cases hs with ⟨k, op, r, rfl, hr, rfl⟩ | ⟨k, x, q, rfl, _, rfl⟩
  · obtain ⟨_, hcall⟩ := made_eq_stamps (h k) hr
    rw [Called, stamps_snoc]
    refine (Function.forall_update_iff s.recorder fun k r => ∀ c call,
      r.pc = .timespecGet c call → ((stamps es).step (.thread _ op)).call k = some call).mpr
        ⟨hcall, fun k' hk c call hpc => ?_⟩
    rw [call_step_of_ne hk]
    exact h k' c call hpc
  · rw [Called, stamps_snoc]
    exact (Function.forall_update_iff s.recorder fun k r => ∀ c call,
      r.pc = .timespecGet c call → (stamps es).call k = some call).mpr
        ⟨h k, fun k' _ => h k'⟩

theorem called_start (rings : κ → β) (fs : FileSystem) : Called [] (start rings fs) :=
  fun _ _ _ hpc => nomatch hpc

theorem called_of_run {rings : κ → β} {fs : FileSystem} {es : List (PipeEvent κ)}
    (h : Run (Step M tid filepath) (start rings fs) es s) : Called es s :=
  Run.history (I := Called) (fun _ _ _ _ hcalled hs => hcalled.step hs) h (called_start rings fs)

/-- The lines of some records. -/
def tsEntries (tid : κ → UInt64) (out : List (κ × NbTsRecord)) : List TsEntry :=
  out.map fun x => ⟨tid x.1, x.2⟩

/-- What the threads made is written, unread or in the making. -/
structure Tally (M : MaRing NbTsRecord β) (contents : β → List NbTsRecord)
    (Owns : β → Nat → Prop) (cap : Nat) (tid : κ → UInt64) (filepath : Text) (fs₀ : FileSystem)
    (out : List (κ × NbTsRecord)) (es : List (PipeEvent κ)) (s : RecordPipe κ β) : Prop where
  kept : ∀ k, (s.recorder k).Kept M contents Owns cap
  fs : s.fs = (tsEntries tid out).foldl (nbTsRecordCallback filepath) fs₀
  lanes : ∀ k, lane k out ++ (contents (s.recorder k).ring ++ (s.recorder k).pending M) =
    lane k (stamped es)
  count : ∀ k, (lane k out).length + (contents (s.recorder k).ring).length = commits k es

theorem tally_start {rings : κ → β} (hrings : ∀ k, contents (rings k) = []) (fs : FileSystem) :
    Tally M contents Owns cap tid filepath fs [] [] (start rings fs) where
  kept k := Recorder.kept_idle (hrings k)
  fs := rfl
  lanes k := by
    show [] ++ (contents (rings k) ++ []) = []
    rw [hrings]
    rfl
  count k := by
    show 0 + (contents (rings k)).length = 0
    rw [hrings]
    rfl

/-- A step of thread `k`, or on its ring: what `k` has to meet afterwards, and that nothing is
different for the others. -/
theorem Tally.update {fs₀ fs : FileSystem} {out out' : List (κ × NbTsRecord)}
    {es es' : List (PipeEvent κ)} {r : Recorder β}
    (h : Tally M contents Owns cap tid filepath fs₀ out es s)
    (hkept : r.Kept M contents Owns cap)
    (hfs : fs = (tsEntries tid out').foldl (nbTsRecordCallback filepath) fs₀)
    (hlanes : lane k out' ++ (contents r.ring ++ r.pending M) = lane k (stamped es'))
    (hcount : (lane k out').length + (contents r.ring).length = commits k es')
    (hother : ∀ k', k' ≠ k → lane k' out' = lane k' out ∧
      lane k' (stamped es') = lane k' (stamped es) ∧ commits k' es' = commits k' es) :
    Tally M contents Owns cap tid filepath fs₀ out' es'
      ⟨Function.update s.recorder k r, fs⟩ where
  kept := (Function.forall_update_iff s.recorder fun _ r => r.Kept M contents Owns cap).mpr
    ⟨hkept, fun k' _ => h.kept k'⟩
  fs := hfs
  lanes := by
    refine (Function.forall_update_iff s.recorder fun k r =>
      lane k out' ++ (contents r.ring ++ r.pending M) = lane k (stamped es')).mpr
        ⟨hlanes, fun k' hk => ?_⟩
    obtain ⟨hout, hnew, _⟩ := hother k' hk
    rw [hout, hnew]
    exact h.lanes k'
  count := by
    refine (Function.forall_update_iff s.recorder fun k r =>
      (lane k out').length + (contents r.ring).length = commits k es').mpr
        ⟨hcount, fun k' hk => ?_⟩
    obtain ⟨hout, _, hnew⟩ := hother k' hk
    rw [hout, hnew]
    exact h.count k'

/-- The step of a thread. -/
theorem Tally.thread (hM : M.Fifo contents Owns cap) {fs₀ : FileSystem}
    {out : List (κ × NbTsRecord)} {es : List (PipeEvent κ)}
    (h : Tally M contents Owns cap tid filepath fs₀ out es s) (hcalled : Called es s)
    {op : RecordOp} {r : Recorder β} (hs : Recorder.Step M (s.recorder k) op r) :
    Tally M contents Owns cap tid filepath fs₀ out (es ++ [.thread k op])
      { s with recorder := Function.update s.recorder k r } := by
  obtain ⟨hlog, _⟩ := made_eq_stamps (hcalled k) hs
  rw [← stamps_snoc] at hlog
  refine h.update ((h.kept k).step hM hs) h.fs ?_ ?_ fun k' hk => ⟨rfl, ?_, ?_⟩
  · rw [stamped, hlog, lane_append, (h.kept k).contents_step hM hs, ← List.append_assoc, h.lanes,
      lane_map_self]
    rfl
  · rw [commits_snoc, (h.kept k).length_step hM hs, ← Nat.add_assoc, h.count]
    simp only [PipeEvent.thread.injEq, true_and]
  · rw [stamped, hlog, lane_append, lane_map_of_ne (Ne.symm hk), List.append_nil]
    rfl
  · have hne : PipeEvent.thread k op ≠ .thread k' .commit := fun heq => by
      cases heq
      exact hk rfl
    rw [commits_snoc, if_neg hne]
    rfl

/-- The step of the reading thread. -/
theorem Tally.callback (hM : M.Fifo contents Owns cap) {fs₀ : FileSystem}
    {out : List (κ × NbTsRecord)} {es : List (PipeEvent κ)}
    (h : Tally M contents Owns cap tid filepath fs₀ out es s) {x : NbTsRecord} {q : β}
    (hread : M.read (s.recorder k).ring = some (x, q)) :
    Tally M contents Owns cap tid filepath fs₀ (out ++ [(k, x)]) (es ++ [.callback k])
      { recorder := Function.update s.recorder k { s.recorder k with ring := q }
        fs := nbTsRecordCallback filepath s.fs ⟨tid k, x⟩ } := by
  have hstamps : stamps (es ++ [.callback k]) = stamps es := stamps_snoc ..
  have hcommits : ∀ k', commits k' (es ++ [.callback k]) = commits k' es := fun k' => by
    rw [commits_snoc, if_neg nofun, Nat.add_zero]
  have hcontents := (hM.read hread).1
  refine h.update ((h.kept k).callback hM hread) ?_ ?_ ?_ fun k' hk => ⟨?_, ?_, hcommits k'⟩
  · rw [tsEntries, List.map_append, List.foldl_append, ← tsEntries, ← h.fs]
    rfl
  · rw [(h.kept k).pending_callback hM hread, stamped, hstamps, ← stamped, ← h.lanes, lane_append,
      lane_single_self, hcontents, List.append_assoc, List.cons_append]
    rfl
  · rw [hcommits, ← h.count, lane_append, List.length_append, lane_single_self, hcontents]
    exact Nat.add_right_comm _ 1 _
  · rw [lane_append, lane_single_of_ne (Ne.symm hk), List.append_nil]
  · rw [stamped, hstamps]
    rfl

/-! ## Runs -/

/-- After any run from empty rings, the records are tallied. -/
theorem tally_of_run (hM : M.Fifo contents Owns cap) {rings : κ → β}
    (hrings : ∀ k, contents (rings k) = []) {fs : FileSystem} {es : List (PipeEvent κ)}
    (h : Run (Step M tid filepath) (start rings fs) es s) :
    ∃ out, Tally M contents Owns cap tid filepath fs out es s := by
  have hboth := Run.history (I := fun es s => Called es s ∧
    ∃ out, Tally M contents Owns cap tid filepath fs out es s) ?_ h
    ⟨called_start rings fs, [], tally_start hrings fs⟩
  · exact hboth.2
  rintro es s e t ⟨hcalled, out, hout⟩ hs
  refine ⟨hcalled.step hs, ?_⟩
  rcases step_cases hs with ⟨k, op, r, rfl, hr, rfl⟩ | ⟨k, x, q, rfl, hread, rfl⟩
  · exact ⟨out, hout.thread hM hcalled hr⟩
  · exact ⟨_, hout.callback hM hread⟩

/-- The call for which a thread has a cell, and did not read the clock. -/
def entered (s : RecordPipe κ β) (k : κ) : List RecordCall :=
  match (s.recorder k).pc with
  | .timespecGet _ call => [call]
  | _ => []

theorem entered_update (s : RecordPipe κ β) (k k' : κ) (r : Recorder β) (fs : FileSystem) :
    entered ⟨Function.update s.recorder k r, fs⟩ k' =
      if k' = k then (match r.pc with | .timespecGet _ call => [call] | _ => []) else s.entered k' := by
  rw [entered]
  dsimp only
  by_cases hk : k' = k
  · obtain rfl := hk
    rw [Function.update_self, if_pos rfl]
  · rw [Function.update_of_ne hk, if_neg hk]
    rfl

/-- What a step does to the calls that were entered and to the records: a call begins, the
clock is read for a call, or neither. -/
theorem Called.stamped_cases {es : List (PipeEvent κ)} (h : Called es s)
    (hs : Step M tid filepath s e t) :
    (∃ k call, e = .thread k (.prepare call) ∧ s.entered k = [] ∧
      stamped (es ++ [e]) = stamped es ∧
      ∀ k', t.entered k' = if k' = k then [call] else s.entered k') ∨
    (∃ k sec nsec call, e = .thread k (.timespecGet sec nsec) ∧ s.entered k = [call] ∧
      stamped (es ++ [e]) = stamped es ++ [(k, call.record sec nsec)] ∧
      ∀ k', t.entered k' = if k' = k then [] else s.entered k') ∨
    ((∀ k call, e ≠ .thread k (.prepare call)) ∧ stamped (es ++ [e]) = stamped es ∧
      ∀ k', t.entered k' = s.entered k') := by
  have hsame : ∀ {k : κ} {r : Recorder β} {fs : FileSystem},
      (match r.pc with | .timespecGet _ call => [call] | _ => []) = s.entered k →
      ∀ k', entered ⟨Function.update s.recorder k r, fs⟩ k' = s.entered k' := by
    intro k r fs hr k'
    rw [entered_update, hr]
    split
    · rename_i hk
      rw [hk]
    · rfl
  rcases step_cases hs with ⟨k, op, r, rfl, hr, rfl⟩ | ⟨k, x, q, rfl, _, rfl⟩
  · obtain ⟨hlog, _⟩ := made_eq_stamps (h k) hr
    rw [← stamps_snoc] at hlog
    cases hr with
    | @prepare c call q hpc halloc =>
        exact Or.inl ⟨k, call, rfl, by rw [entered, hpc], hlog.trans (List.append_nil _),
          fun k' => entered_update ..⟩
    | @timespecGet c call sec nsec hpc =>
        refine Or.inr (Or.inl ⟨k, sec, nsec, call, rfl, by rw [entered, hpc], ?_,
          fun k' => entered_update ..⟩)
        rw [Recorder.made, hpc] at hlog
        exact hlog
    | assign hpc =>
        refine Or.inr (Or.inr ⟨nofun, hlog.trans (List.append_nil _), hsame ?_⟩)
        rw [entered, hpc]
    | commit hpc =>
        refine Or.inr (Or.inr ⟨nofun, hlog.trans (List.append_nil _), hsame ?_⟩)
        rw [entered, hpc]
  · refine Or.inr (Or.inr ⟨nofun, ?_, hsame rfl⟩)
    rw [stamped, stamps_snoc]
    rfl

/-- A run from where `nb_record_init` has returned, with empty rings. -/
def RunFrom (M : MaRing NbTsRecord β) (contents : β → List NbTsRecord) (tid : κ → UInt64)
    (filepath : Text) (os : Os) (fs₀ : FileSystem) (es : List (PipeEvent κ))
    (s : RecordPipe κ β) : Prop :=
  ∃ rings fs, (∀ k, contents (rings k) = []) ∧ nbRecordInit os filepath fs₀ = some fs ∧
    Run (Step M tid filepath) (start rings fs) es s

/-- However the threads are interleaved, the files are those of a program that makes its
records one after the other; for each thread these are the records that it committed first,
and those behind them are in its ring. -/
theorem exec_of_pipe (hM : M.Fifo contents Owns cap) {os : Os} {fs₀ : FileSystem}
    {es : List (PipeEvent κ)} (h : RunFrom M contents tid filepath os fs₀ es s) :
    ∃ out, ProgramRun.exec filepath fs₀ ⟨os, tsEntries tid out⟩ = some s.fs ∧
      ∀ k, lane k out ++ contents (s.recorder k).ring =
          (lane k (stamped es)).take (commits k es) ∧
        (contents (s.recorder k).ring).length ≤ cap := by
  obtain ⟨rings, fs, hrings, hinit, hrun⟩ := h
  obtain ⟨out, hout⟩ := tally_of_run hM hrings hrun
  refine ⟨out, ?_, fun k => ⟨?_, ?_⟩⟩
  · rw [ProgramRun.exec, hinit, hout.fs]
    rfl
  · rw [← hout.lanes, ← List.append_assoc, ← hout.count, ← List.length_append, List.take_left']
    rfl
  · exact Nat.le_trans (Nat.le_add_right _ _) (hout.kept k).room

/-- Two threads in the macro at the same time, each with one cell. -/
def sampleOps (k : Bool) : List RecordOp :=
  [.prepare ⟨7, cond k 1 0, 64, "test".toList⟩, .timespecGet 1718755200 (cond k 9 5), .assign,
    .assign, .assign, .assign, .commit]

def sampleEvents : List (PipeEvent Bool) :=
  (List.zipWith (fun op op' => [.thread false op, .thread true op'])
    (sampleOps false) (sampleOps true)).flatten ++ [.callback true, .callback false]

def sampleTid (k : Bool) : UInt64 := cond k 12 11

/-- A ring of one cell. -/
def oneCell : MaRing NbTsRecord (CellRing NbTsRecord 1) := cellRing NbTsRecord 1

theorem runFrom_sample : ∃ s, s.Drained oneCell ∧
    RunFrom oneCell CellRing.contents sampleTid samplePath sampleOs sampleSystem sampleEvents
      s := by
  obtain ⟨fs, hinit⟩ : ∃ fs, nbRecordInit sampleOs samplePath sampleSystem = some fs := ⟨_, rfl⟩
  let rings : Bool → CellRing NbTsRecord 1 := fun _ => .empty 1 fun _ => ⟨0, 0, 0, 0, 0, []⟩
  have hobs : ∀ fs : FileSystem,
      (sampleEvents.foldlM (exec oneCell sampleTid samplePath) (start rings fs)).map (fun s =>
        decide (∀ k, (s.recorder k).pc = .idle ∧ (oneCell.read (s.recorder k).ring).isNone)) =
          some true :=
    fun fs => rfl
  obtain ⟨s, hs, hdrained⟩ := Option.map_eq_some_iff.mp (hobs fs)
  have hall := of_decide_eq_true hdrained
  exact ⟨s, fun k => ⟨(hall k).1, Option.isNone_iff_eq_none.mp (hall k).2⟩, rings, fs,
    fun _ => rfl, hinit, Run.of_foldlM hs⟩

theorem exec_of_pipe_sample : ∃ s,
    RunFrom oneCell CellRing.contents sampleTid samplePath sampleOs sampleSystem sampleEvents s ∧
    ∃ out,
      ProgramRun.exec samplePath sampleSystem ⟨sampleOs, tsEntries sampleTid out⟩ = some s.fs ∧
        lane true out ++ (s.recorder true).ring.contents =
          (lane true (stamped sampleEvents)).take (commits true sampleEvents) := by
  obtain ⟨s, _, hrun⟩ := runFrom_sample
  obtain ⟨out, hexec, hlanes⟩ := exec_of_pipe (cellRing_fifo NbTsRecord 1) hrun
  exact ⟨s, hrun, out, hexec, (hlanes true).1⟩

/-- Once everything is read, the file has what the threads made, each record once. -/
theorem drained_of_pipe (hM : M.Fifo contents Owns cap) {os : Os} {fs₀ : FileSystem}
    {es : List (PipeEvent κ)} (h : RunFrom M contents tid filepath os fs₀ es s)
    (hdrained : s.Drained M) :
    ∃ out, ProgramRun.exec filepath fs₀ ⟨os, tsEntries tid out⟩ = some s.fs ∧
      (∀ k, lane k out = lane k (stamped es)) ∧ out.Perm (stamped es) := by
  obtain ⟨rings, fs, hrings, hinit, hrun⟩ := h
  obtain ⟨out, hout⟩ := tally_of_run hM hrings hrun
  have hlanes : ∀ k, lane k out = lane k (stamped es) := by
    intro k
    obtain ⟨hpc, hread⟩ := hdrained k
    rw [← hout.lanes, Recorder.pending_of_not_assign (by rw [hpc]; exact nofun),
      hM.read_none hread, List.append_nil, List.append_nil]
  refine ⟨out, ?_, hlanes, perm_of_lane_eq hlanes⟩
  rw [ProgramRun.exec, hinit, hout.fs]
  rfl

/-- The loader finds the records of all threads, each once, and those of a thread in the
order in which it made them. -/
theorem load_of_pipe (hM : M.Fifo contents Owns cap) {os : Os} {fs₀ : FileSystem}
    {es : List (PipeEvent κ)} (h : RunFrom M contents tid filepath os fs₀ es s)
    (hdrained : s.Drained M)
    (hnew : fs₀.has filepath = false)
    (hrec : ∀ x ∈ stamped es, x.2.Printable ∧ x.2.action.length ≤ Script.fieldSizeLimit) :
    ∃ file d out, s.fs.files filepath = some file ∧ Script.loadRecordListDict ∅ file = some d ∧
      (∀ k, lane k out = lane k (stamped es)) ∧ out.Perm (stamped es) ∧
      ∀ n : Int, List.Forall₂ Holds ((d.get? n).getD [])
        ((out.map Prod.snd).filter fun r => (r.msgSize.toNat : Int) = n) := by
  obtain ⟨out, hexec, hlanes, hperm⟩ := drained_of_pipe hM h hdrained
  have hruns : programRuns filepath [⟨os, tsEntries tid out⟩] fs₀ = some s.fs := by
    rw [programRuns, List.foldlM_cons, hexec]
    rfl
  have hentries : allEntries [⟨os, tsEntries tid out⟩] = tsEntries tid out := List.append_nil _
  have hall : ∀ e ∈ tsEntries tid out,
      e.record.Printable ∧ e.record.action.length ≤ Script.fieldSizeLimit := by
    intro e he
    obtain ⟨x, hx, rfl⟩ := List.mem_map.mp he
    exact hrec x (hperm.mem_iff.mp hx)
  have hfile := files_programRuns hruns hnew (List.cons_ne_nil _ _)
  rw [hentries] at hfile
  refine ⟨_, _, out, hfile, loadRecordListDict_recordFile (fun e he => (hall e he).1)
    (fun e he => (hall e he).2) ∅, hlanes, hperm, fun n => ?_⟩
  have hrecords : out.map Prod.snd = (tsEntries tid out).map TsEntry.record := by
    rw [tsEntries, List.map_map]
    rfl
  rw [Dict.getD_group, filter_rows, hrecords, List.filter_map, List.forall₂_map_left_iff,
    List.forall₂_map_right_iff]
  refine List.forall₂_same.mpr ?_
  intro e he
  exact holds_row (hall e (List.mem_of_mem_filter he)).1

theorem load_of_pipe_sample : ∃ s,
    RunFrom oneCell CellRing.contents sampleTid samplePath sampleOs sampleSystem sampleEvents s ∧
    ∃ file d, ∃ out : List (Bool × NbTsRecord),
      s.fs.files samplePath = some file ∧ Script.loadRecordListDict ∅ file = some d ∧
      out.Perm (stamped sampleEvents) ∧
      List.Forall₂ Holds ((d.get? 64).getD [])
        ((out.map Prod.snd).filter fun r => (r.msgSize.toNat : Int) = 64) := by
  obtain ⟨s, hdrained, hrun⟩ := runFrom_sample
  have hrec : ∀ x ∈ stamped sampleEvents,
      x.2.Printable ∧ x.2.action.length ≤ Script.fieldSizeLimit := by decide
  obtain ⟨file, d, out, hfile, hload, _, hperm, hrows⟩ :=
    load_of_pipe (cellRing_fifo NbTsRecord 1) hrun hdrained rfl hrec
  exact ⟨s, hrun, file, d, out, hfile, hload, hperm, hrows 64⟩

end RecordPipe

end NetBench
