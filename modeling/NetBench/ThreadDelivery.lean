/-
# `NetBench.ThreadDelivery` — what the consumer receives

As long as a write finds room in the channel, the messages pass through the channel in
order, each in a block of its own that is freed once, and every run comes to its end with
the sentinel (`thread_delivers`).  The program does not check that: when the consumer is
behind by a full channel, a message is lost with its block, and so is the sentinel, which
leaves both threads waiting (`full_channel_loses`).
-/
import NetBench.Lib.Run
import NetBench.ThreadApp
import Mathlib.Data.List.Nodup
import Mathlib.Data.List.Perm.Subperm

namespace NetBench

open Lib

/-! ## What the threads hold -/

/-- The block that the consumer has not looked at. -/
def Consumer.unread : Consumer → List Nat
  | .got p => [p]
  | _ => []

/-- The block that the consumer has not freed. -/
def Consumer.held : Consumer → List Nat
  | .got p => [p]
  | .freeing p => [p]
  | _ => []

/-- The block that the producer has not written. -/
def Producer.held : Producer → List Nat
  | .copy _ _ (some p) => [p]
  | .write _ _ p => [p]
  | _ => []

/-- The sentinel was written. -/
def Producer.Sent : Producer → Prop
  | .join => True
  | .returned => True
  | _ => False

instance (p : Producer) : Decidable p.Sent := by
  cases p <;> unfold Producer.Sent <;> infer_instance

/-- The number of messages that were written. -/
def Producer.done (a : NbSysArgs) : Producer → Nat
  | .outer r => r.toNat * a.numPerRound.toNat
  | .inner r i => a.position r i
  | .alloc r i => a.position r i
  | .copy r i _ => a.position r i
  | .write r i _ => a.position r i
  | _ => a.total

/-- The loops are inside of their bounds. -/
def Producer.InLoop (a : NbSysArgs) : Producer → Prop
  | .outer r => r ≤ a.roundNum
  | .inner r i => r < a.roundNum ∧ i ≤ a.numPerRound
  | .alloc r i => r < a.roundNum ∧ i < a.numPerRound
  | .copy r i p => (r < a.roundNum ∧ i < a.numPerRound) ∧ p ≠ none
  | .write r i _ => r < a.roundNum ∧ i < a.numPerRound
  | .crashed => False
  | _ => True

namespace ThreadApp

/-- The messages that the consumer has looked at, in order. -/
def consumed (log : List ThreadEv) : List Bytes :=
  log.filterMap fun | .consume b => some b | _ => none

/-- The blocks that the pool gave out, in order. -/
def allocated (log : List ThreadEv) : List Nat :=
  log.filterMap fun | .alloc p => p | _ => none

/-- The blocks that were freed, in order. -/
def freed (log : List ThreadEv) : List Nat :=
  log.filterMap fun | .free p => some p | _ => none

/-- The blocks in the channel. -/
def blocks (s : ThreadApp) : List Nat := s.chan.filterMap id

variable {a : NbSysArgs} {cap : Nat} {T : Bytes} {s s' : ThreadApp} {e : ThreadEvent}

/-! ## Where the threads stand -/

/-- The steps at which the program relies on the consumer: a write finds room in the
channel, and an allocation a free block.  The latter is left to the channel if the pool
has two blocks more than the channel has room. -/
def Keeping (a : NbSysArgs) (cap : Nat) (s : ThreadApp) : ThreadEvent → Prop
  | .write => s.chan.length < cap
  | .sentinel => s.chan.length < cap
  | .alloc _ => cap + 2 ≤ poolSize a ∨ s.chan.length + s.consumer.held.length < poolSize a
  | _ => True

/-- Where the producer stands, and what the channel and the consumer are then. -/
structure Control (a : NbSysArgs) (cap : Nat) (s : ThreadApp) : Prop where
  inLoop : s.producer.InLoop a
  chan_eq : s.consumer ≠ .exited →
    s.chan = s.blocks.map some ++ if s.producer.Sent then [none] else []
  exited : s.consumer = .exited → s.producer.Sent ∧ s.chan = []
  returned : s.producer = .returned → s.consumer = .exited
  room : s.chan.length ≤ cap

/-- Every block in use is with one of the threads or in the channel, and blocks are freed
in the order in which they were allocated. -/
structure Blocks (a : NbSysArgs) (s : ThreadApp) : Prop where
  used_eq : s.used = s.consumer.held ++ (s.blocks ++ s.producer.held)
  nodup : s.used.Nodup
  lt : ∀ p ∈ s.used, p < poolSize a
  freed_eq : freed s.log ++ s.used = allocated s.log
  notNull : .alloc none ∉ s.log

/-- The messages so far are with the consumer or on their way to it. -/
structure Flow (a : NbSysArgs) (T : Bytes) (s : ThreadApp) : Prop where
  content : ∀ r i p, s.producer = .write r i p → s.mem p = a.slice T (a.position r i)
  messages : consumed s.log ++ (s.consumer.unread ++ s.blocks).map s.mem =
    a.slices T 0 (s.producer.done a)
  count : (allocated s.log).length = s.producer.done a + s.producer.held.length

/-! ## The start -/

theorem control_start : Control a cap start where
  inLoop := UInt32.le_iff_toNat_le.mpr (Nat.zero_le _)
  chan_eq _ := rfl
  exited h := nomatch h
  returned h := nomatch h
  room := Nat.zero_le _

theorem blocks_start : Blocks a start where
  used_eq := rfl
  nodup := List.nodup_nil
  lt _ h := absurd h List.not_mem_nil
  freed_eq := rfl
  notNull := List.not_mem_nil

theorem flow_start : Flow a T start where
  content _ _ _ h := nomatch h
  messages := by
    rw [start, Producer.done, UInt32.toNat_zero, Nat.zero_mul]
    rfl
  count := by
    rw [start, Producer.done, UInt32.toNat_zero, Nat.zero_mul]
    rfl

/-! ## One step -/

@[simp] theorem consumed_append (l l' : List ThreadEv) :
    consumed (l ++ l') = consumed l ++ consumed l' := List.filterMap_append

@[simp] theorem allocated_append (l l' : List ThreadEv) :
    allocated (l ++ l') = allocated l ++ allocated l' := List.filterMap_append

@[simp] theorem freed_append (l l' : List ThreadEv) :
    freed (l ++ l') = freed l ++ freed l' := List.filterMap_append

/-- Assertions and records are no allocations, no frees and no messages. -/
theorem prepareEvents_quiet (a : NbSysArgs) (r i : UInt32) (m : Bytes) :
    consumed (prepareEvents a r i m) = [] ∧ allocated (prepareEvents a r i m) = [] ∧
      freed (prepareEvents a r i m) = [] ∧ .alloc none ∉ prepareEvents a r i m := by
  unfold prepareEvents
  dsimp only
  split
  · exact ⟨rfl, rfl, rfl, by simp⟩
  · exact ⟨rfl, rfl, rfl, by simp⟩

theorem channelWrite_of_room {ch : List (Option Nat)} (h : ch.length < cap) (x : Option Nat) :
    channelWrite cap ch x = ch ++ [x] := if_pos h

theorem blocks_append {ch : List (Option Nat)} (hch : s'.chan = s.chan ++ ch) :
    s'.blocks = s.blocks ++ ch.filterMap id := by
  rw [blocks, hch, List.filterMap_append]
  rfl

/-- The consumer runs until the sentinel was written. -/
theorem Control.running (h : Control a cap s) (hsent : ¬ s.producer.Sent) :
    s.consumer ≠ .exited := fun hx => hsent (h.exited hx).1

/-- Before the sentinel, the channel has blocks only. -/
theorem Control.chan_blocks (h : Control a cap s) (hsent : ¬ s.producer.Sent) :
    s.chan = s.blocks.map some := by
  have hchan := h.chan_eq (h.running hsent)
  rw [if_neg hsent, List.append_nil] at hchan
  exact hchan

/-- The producer goes on, and the channel and the consumer stay. -/
theorem Control.move (h : Control a cap s) (hsent : ¬ s.producer.Sent)
    (hin : s'.producer.InLoop a) (hsent' : ¬ s'.producer.Sent) (hchan : s'.chan = s.chan)
    (hcons : s'.consumer = s.consumer) : Control a cap s' where
  inLoop := hin
  chan_eq _ := by
    rw [if_neg hsent', List.append_nil, blocks, hchan]
    exact h.chan_blocks hsent
  exited hx := absurd (hcons.symm.trans hx) (h.running hsent)
  returned hx := absurd (hx ▸ trivial) hsent'
  room := hchan ▸ h.room

/-- The producer writes to a channel that has room. -/
theorem Control.push (h : Control a cap s) (hsent : ¬ s.producer.Sent)
    (hroom : s.chan.length < cap) (x : Option Nat) (hchan : s'.chan = channelWrite cap s.chan x)
    (hcons : s'.consumer = s.consumer) (hin : s'.producer.InLoop a)
    (hret : s'.producer ≠ .returned) (hx : x = none ↔ s'.producer.Sent) : Control a cap s' := by
  rw [channelWrite_of_room hroom] at hchan
  refine ⟨hin, fun _ => ?_, fun hex => absurd (hcons.symm.trans hex) (h.running hsent),
    fun hr => absurd hr hret, ?_⟩
  · rw [blocks_append hchan, List.map_append, ← h.chan_blocks hsent, hchan, List.append_assoc]
    cases x with
    | none =>
        rw [if_pos (hx.mp rfl)]
        rfl
    | some p =>
        rw [if_neg fun hs => nomatch hx.mpr hs]
        rfl
  · rw [hchan, List.length_append, List.length_singleton]
    exact hroom

theorem Control.step (h : Control a cap s) (hk : Keeping a cap s e)
    (hnull : e ≠ .alloc none) (hs : Step a cap T s e s') : Control a cap s' := by
  have hin := h.inLoop
  cases hs with
  | @round r hp hr =>
      exact h.move (by rw [hp]; exact id) ⟨hr, UInt32.le_iff_toNat_le.mpr (Nat.zero_le _)⟩ id rfl rfl
  | rounds hp hr => exact h.move (by rw [hp]; exact id) trivial id rfl rfl
  | prepare hp hi hm =>
      rw [hp] at hin
      exact h.move (by rw [hp]; exact id) ⟨hin.1, hi⟩ id rfl rfl
  | @roundDone r i hp hi =>
      rw [hp] at hin
      refine h.move (by rw [hp]; exact id) (UInt32.le_iff_toNat_le.mpr ?_) id rfl rfl
      have hlt := UInt32.lt_iff_toNat_lt.mp hin.1
      rw [toNat_succ hlt]
      exact hlt
  | alloc hp hlt hfree =>
      rw [hp] at hin
      exact h.move (by rw [hp]; exact id) ⟨hin, nofun⟩ id rfl rfl
  | allocNull hp hnone => exact absurd rfl hnull
  | copy hp hm =>
      rw [hp] at hin
      exact h.move (by rw [hp]; exact id) hin.1 id rfl rfl
  | crash hp =>
      rw [hp] at hin
      exact absurd rfl hin.2
  | @write r i p m hp hm =>
      rw [hp] at hin
      have hlt := UInt32.lt_iff_toNat_lt.mp hin.2
      refine h.push (by rw [hp]; exact id) hk (some p) rfl rfl
        ⟨hin.1, UInt32.le_iff_toNat_le.mpr ?_⟩ nofun (iff_of_false nofun id)
      rw [toNat_succ hlt]
      exact hlt
  | sentinel hp =>
      exact h.push (by rw [hp]; exact id) hk none rfl rfl trivial nofun (iff_of_true rfl trivial)
  | join hp hc =>
      exact ⟨trivial, fun hx => absurd hc hx, fun _ => ⟨trivial, (h.exited hc).2⟩, fun _ => hc,
        h.room⟩
  | @read p ch hc hch =>
      have hx : s.consumer ≠ .exited := by rw [hc]; exact nofun
      have hchan := h.chan_eq hx
      have hroom := h.room
      rw [hch, List.length_cons] at hroom
      refine ⟨hin, fun _ => ?_, nofun, fun hr => absurd (h.returned hr) hx, Nat.le_of_succ_le hroom⟩
      rw [blocks, hch] at hchan
      exact (List.cons.inj hchan).2
  | @readNull ch hc hch =>
      have hx : s.consumer ≠ .exited := by rw [hc]; exact nofun
      have hchan := h.chan_eq hx
      have hroom := h.room
      rw [hch, List.length_cons] at hroom
      -- the sentinel is the last element
      have hblocks : s.blocks = [] := by
        rcases hb : s.blocks with _ | ⟨p, ps⟩
        · rfl
        · rw [hb, hch] at hchan
          exact nomatch (List.cons.inj hchan).1
      rw [hblocks, hch, List.map_nil, List.nil_append] at hchan
      by_cases hsent : s.producer.Sent
      · rw [if_pos hsent] at hchan
        exact ⟨hin, fun hx => absurd rfl hx, fun _ => ⟨hsent, (List.cons.inj hchan).2⟩,
          fun _ => rfl, Nat.le_of_succ_le hroom⟩
      · rw [if_neg hsent] at hchan
        exact nomatch hchan
  | consume hc =>
      have hx : s.consumer ≠ .exited := by rw [hc]; exact nofun
      exact ⟨hin, fun _ => h.chan_eq hx, nofun, fun hr => absurd (h.returned hr) hx, h.room⟩
  | free hc =>
      have hx : s.consumer ≠ .exited := by rw [hc]; exact nofun
      exact ⟨hin, fun _ => h.chan_eq hx, nofun, fun hr => absurd (h.returned hr) hx, h.room⟩

/-! ## The pool -/

theorem exists_free {used : List Nat} {n : Nat} (h : used.length < n) : ∃ p < n, p ∉ used := by
  by_contra hall
  have hsub : List.range n ⊆ used := by
    intro p hp
    by_contra hfree
    exact hall ⟨p, List.mem_range.mp hp, hfree⟩
  have hle := (List.subperm_of_subset List.nodup_range hsub).length_le
  rw [List.length_range] at hle
  omega

theorem length_held_le (c : Consumer) : c.held.length ≤ 1 := by
  cases c with
  | read => exact Nat.zero_le _
  | got p => exact Nat.le_refl _
  | freeing p => exact Nat.le_refl _
  | exited => exact Nat.zero_le _

/-- While the consumer is not too far behind, a block is free for the producer. -/
theorem Blocks.length_lt (h : Blocks a s) (hc : Control a cap s) {r i : UInt32}
    (hp : s.producer = .alloc r i) {q : Option Nat} (hk : Keeping a cap s (.alloc q)) :
    s.used.length < poolSize a := by
  have hblocks : s.blocks.length ≤ s.chan.length := List.length_filterMap_le ..
  have hroom := hc.room
  have hheld := length_held_le s.consumer
  have hprod : s.producer.held = [] := by rw [hp]; rfl
  rw [h.used_eq, hprod, List.append_nil, List.length_append]
  rcases hk with hcap | hlag
  · omega
  · omega

theorem Blocks.alloc_some (h : Blocks a s) (hc : Control a cap s) (hk : Keeping a cap s e)
    (hs : Step a cap T s e s') : e ≠ .alloc none := by
  rintro rfl
  cases hs with
  | allocNull hp hnone =>
      obtain ⟨p, hlt, hfree⟩ := exists_free (h.length_lt hc hp hk)
      exact hfree (hnone p hlt)

/-- A step that neither allocates nor frees; it may hand a block on. -/
theorem Blocks.of_same (h : Blocks a s) (hused : s'.used = s.used)
    (hheld : s'.consumer.held ++ (s'.blocks ++ s'.producer.held) =
      s.consumer.held ++ (s.blocks ++ s.producer.held))
    {l : List ThreadEv} (hlog : s'.log = s.log ++ l) (halloc : allocated l = [])
    (hfreed : freed l = []) (hnull : .alloc none ∉ l) : Blocks a s' where
  used_eq := by rw [hused, hheld]; exact h.used_eq
  nodup := hused ▸ h.nodup
  lt := hused ▸ h.lt
  freed_eq := by
    rw [hlog, hused, freed_append, allocated_append, halloc, hfreed, List.append_nil,
      List.append_nil]
    exact h.freed_eq
  notNull := by
    rw [hlog, List.mem_append]
    rintro (hmem | hmem)
    · exact h.notNull hmem
    · exact hnull hmem

/-- Nothing is logged. -/
theorem Blocks.of_silent (h : Blocks a s) (hused : s'.used = s.used)
    (hheld : s'.consumer.held ++ (s'.blocks ++ s'.producer.held) =
      s.consumer.held ++ (s.blocks ++ s.producer.held))
    (hlog : s'.log = s.log) : Blocks a s' :=
  h.of_same (l := []) hused hheld (hlog.trans (List.append_nil _).symm) rfl rfl List.not_mem_nil

theorem Blocks.step (h : Blocks a s) (hc : Control a cap s) (hk : Keeping a cap s e)
    (hs : Step a cap T s e s') : Blocks a s' := by
  have hnull := h.alloc_some hc hk hs
  have hused := h.used_eq
  cases hs with
  | round hp hr => exact h.of_silent rfl (by rw [hp]; rfl) rfl
  | rounds hp hr => exact h.of_silent rfl (by rw [hp]; rfl) rfl
  | @prepare r i m hp hi hm =>
      obtain ⟨_, halloc, hfreed, hno⟩ := prepareEvents_quiet a r i m
      exact h.of_same rfl (by rw [hp]; rfl) rfl halloc hfreed hno
  | roundDone hp hi => exact h.of_silent rfl (by rw [hp]; rfl) rfl
  | @alloc r i p hp hlt hfree =>
      have hprod : s.producer.held = [] := by rw [hp]; rfl
      rw [hprod, List.append_nil] at hused
      refine ⟨?_, ?_, ?_, ?_, ?_⟩
      · show s.used ++ [p] = s.consumer.held ++ (s.blocks ++ [p])
        rw [hused, List.append_assoc]
      · exact h.nodup.append (List.nodup_singleton p) (List.disjoint_singleton.mpr hfree)
      · intro q hq
        rcases List.mem_append.mp hq with hq | hq
        · exact h.lt q hq
        · obtain rfl := List.mem_singleton.mp hq
          exact hlt
      · show freed (s.log ++ [.alloc (some p)]) ++ (s.used ++ [p]) =
          allocated (s.log ++ [.alloc (some p)])
        rw [freed_append, allocated_append, ← h.freed_eq, ← List.append_assoc]
        exact congrArg (· ++ s.used ++ [p]) (List.append_nil _)
      · rw [List.mem_append, List.mem_singleton]
        rintro (hmem | hmem)
        · exact h.notNull hmem
        · exact nomatch hmem
  | allocNull hp hnone => exact absurd rfl hnull
  | copy hp hm => exact h.of_same rfl (by rw [hp]; rfl) rfl rfl rfl (by simp [pushEvent])
  | crash hp =>
      have hin := hc.inLoop
      rw [hp] at hin
      exact absurd rfl hin.2
  | @write r i p m hp hm =>
      refine h.of_same rfl ?_ rfl rfl rfl (by simp [pushEvent])
      rw [blocks_append (channelWrite_of_room hk (some p)), hp, List.append_assoc]
      rfl
  | sentinel hp =>
      refine h.of_silent rfl ?_ rfl
      rw [blocks_append (channelWrite_of_room hk none), hp, List.append_assoc]
      rfl
  | join hp hc => exact h.of_silent rfl (by rw [hp]; rfl) rfl
  | @read p ch hc hch =>
      refine h.of_silent rfl ?_ rfl
      rw [hc, blocks, blocks, hch]
      rfl
  | @readNull ch hc hch =>
      refine h.of_silent rfl ?_ rfl
      rw [hc, blocks, blocks, hch]
      rfl
  | consume hc =>
      exact h.of_same rfl (by rw [hc]; rfl) rfl rfl rfl (by simp [rcvEvent])
  | @free p hc =>
      have hcons : s.used = p :: (s.blocks ++ s.producer.held) := by
        rw [hused, hc]
        rfl
      have herase : s.used.erase p = s.blocks ++ s.producer.held := by
        rw [hcons, List.erase_cons_head]
      refine ⟨herase, h.nodup.sublist List.erase_sublist,
        fun q hq => h.lt q (List.mem_of_mem_erase hq), ?_, ?_⟩
      · show freed (s.log ++ [.free p]) ++ s.used.erase p = allocated (s.log ++ [.free p])
        rw [freed_append, allocated_append, ← h.freed_eq, hcons, List.erase_cons_head,
          List.append_assoc]
        exact (List.append_nil _).symm
      · rw [List.mem_append, List.mem_singleton]
        rintro (hmem | hmem)
        · exact h.notNull hmem
        · exact nomatch hmem

/-! ## The messages -/

theorem message_eq (ha : a.Sized) (hT : a.Prepared T) {r i : UInt32} (hr : r < a.roundNum)
    (hi : i < a.numPerRound) : message a T r i = some (a.slice T (a.position r i)) := by
  rw [message, ha.producerOffset_eq hr hi]
  exact NbSysArgs.load_slice hT.length_eq (NbSysArgs.position_lt hr hi)

theorem unread_subset_held (c : Consumer) : c.unread ⊆ c.held := by
  intro p hp
  cases c with
  | got p' => exact hp
  | read => exact absurd hp List.not_mem_nil
  | freeing p' => exact absurd hp List.not_mem_nil
  | exited => exact absurd hp List.not_mem_nil

/-- The block of the producer is not on its way to the consumer. -/
theorem Blocks.ne_of_unread (h : Blocks a s) {p : Nat} (hp : s.producer.held = [p]) :
    ∀ q ∈ s.consumer.unread ++ s.blocks, q ≠ p := by
  rintro q hq rfl
  have hnodup := h.nodup
  rw [h.used_eq, hp, ← List.append_assoc] at hnodup
  refine List.disjoint_of_nodup_append hnodup ?_ (List.mem_singleton_self q)
  rcases List.mem_append.mp hq with hq | hq
  · exact List.mem_append_left _ (unread_subset_held _ hq)
  · exact List.mem_append_right _ hq

/-- A step that writes no message; it may hand one on. -/
theorem Flow.of_same (h : Flow a T s) (hmem : s'.mem = s.mem)
    (hunread : s'.consumer.unread ++ s'.blocks = s.consumer.unread ++ s.blocks)
    (hdone : s'.producer.done a = s.producer.done a)
    (hheld : s'.producer.held = s.producer.held)
    (hcontent : ∀ r i p, s'.producer = .write r i p → s.producer = .write r i p)
    {l : List ThreadEv} (hlog : s'.log = s.log ++ l) (hconsumed : consumed l = [])
    (halloc : allocated l = []) : Flow a T s' where
  content r i p hw := hmem ▸ h.content r i p (hcontent r i p hw)
  messages := by
    rw [hlog, consumed_append, hconsumed, List.append_nil, hunread, hmem, hdone]
    exact h.messages
  count := by
    rw [hlog, allocated_append, halloc, List.append_nil, hdone, hheld]
    exact h.count

theorem Flow.of_silent (h : Flow a T s) (hmem : s'.mem = s.mem)
    (hunread : s'.consumer.unread ++ s'.blocks = s.consumer.unread ++ s.blocks)
    (hdone : s'.producer.done a = s.producer.done a)
    (hheld : s'.producer.held = s.producer.held)
    (hcontent : ∀ r i p, s'.producer = .write r i p → s.producer = .write r i p)
    (hlog : s'.log = s.log) : Flow a T s' :=
  h.of_same (l := []) hmem hunread hdone hheld hcontent
    (hlog.trans (List.append_nil _).symm) rfl rfl

theorem Flow.step (ha : a.Sized) (hT : a.Prepared T) (h : Flow a T s) (hc : Control a cap s)
    (hb : Blocks a s) (hk : Keeping a cap s e) (hs : Step a cap T s e s') : Flow a T s' := by
  have hnull := hb.alloc_some hc hk hs
  have hin := hc.inLoop
  cases hs with
  | round hp hr =>
      exact h.of_silent rfl rfl (by rw [hp]; rfl) (by rw [hp]; rfl) (by rintro _ _ _ ⟨⟩) rfl
  | @rounds r hp hr =>
      refine h.of_silent rfl rfl ?_ (by rw [hp]; rfl) (by rintro _ _ _ ⟨⟩) rfl
      rw [hp] at hin ⊢
      have hle := UInt32.le_iff_toNat_le.mp hin
      have hge : a.roundNum.toNat ≤ r.toNat := Nat.not_lt.mp fun hlt =>
        hr (UInt32.lt_iff_toNat_lt.mpr hlt)
      show a.total = r.toNat * a.numPerRound.toNat
      rw [NbSysArgs.total, Nat.le_antisymm hle hge, Nat.mul_comm]
  | @prepare r i m hp hi hm =>
      obtain ⟨hcons, halloc, _, _⟩ := prepareEvents_quiet a r i m
      exact h.of_same rfl rfl (by rw [hp]; rfl) (by rw [hp]; rfl) (by rintro _ _ _ ⟨⟩) rfl hcons halloc
  | @roundDone r i hp hi =>
      refine h.of_silent rfl rfl ?_ (by rw [hp]; rfl) (by rintro _ _ _ ⟨⟩) rfl
      rw [hp] at hin ⊢
      exact (NbSysArgs.position_end hin.1 hin.2 hi).symm
  | @alloc r i p hp hlt hfree =>
      refine ⟨by rintro _ _ _ ⟨⟩, ?_, ?_⟩
      · have hmsgs := h.messages
        rw [hp] at hmsgs
        rw [consumed_append]
        exact (congrArg (· ++ _) (List.append_nil _)).trans hmsgs
      · have hcount := h.count
        rw [hp] at hcount
        rw [allocated_append, List.length_append, hcount]
        rfl
  | allocNull hp hnone => exact absurd rfl hnull
  | @copy r i p m hp hm =>
      rw [hp] at hin
      have hmsg := hm.symm.trans (message_eq ha hT hin.1.1 hin.1.2)
      have hne := hb.ne_of_unread (show s.producer.held = [p] by rw [hp]; rfl)
      refine ⟨?_, ?_, ?_⟩
      · rintro r' i' p' hw
        cases hw
        show Function.update s.mem p m p = _
        rw [Function.update_self]
        exact Option.some.inj hmsg
      · have hmsgs := h.messages
        rw [hp] at hmsgs
        rw [consumed_append]
        refine Eq.trans ?_ hmsgs
        have hmap : (s.consumer.unread ++ s.blocks).map (Function.update s.mem p m) =
            (s.consumer.unread ++ s.blocks).map s.mem :=
          List.map_congr_left fun q hq => Function.update_of_ne (hne q hq) m s.mem
        exact congrArg₂ (· ++ ·) (List.append_nil _) hmap
      · have hcount := h.count
        rw [hp] at hcount
        rw [allocated_append]
        exact (congrArg List.length (List.append_nil _)).trans hcount
  | crash hp =>
      rw [hp] at hin
      exact absurd rfl hin.2
  | @write r i p m hp hm =>
      rw [hp] at hin
      have hmsgs := h.messages
      have hcontent := h.content r i p hp
      have hcount := h.count
      have hdone : a.position r (i + 1) = a.position r i + 1 := NbSysArgs.position_succ hin.2
      rw [hp] at hmsgs hcount
      refine ⟨by rintro _ _ _ ⟨⟩, ?_, ?_⟩
      · have hmsgs : consumed s.log ++ (s.consumer.unread ++ s.blocks).map s.mem =
            a.slices T 0 (a.position r i) := hmsgs
        rw [consumed_append, blocks_append (channelWrite_of_room hk (some p))]
        show consumed s.log ++ [] ++ (s.consumer.unread ++ (s.blocks ++ [p])).map s.mem =
          a.slices T 0 (a.position r (i + 1))
        rw [hdone, NbSysArgs.slices_succ, ← hmsgs, Nat.zero_add, ← hcontent, List.append_nil,
          ← List.append_assoc, List.map_append, ← List.append_assoc]
        rfl
      · rw [allocated_append]
        refine (congrArg List.length (List.append_nil _)).trans (hcount.trans ?_)
        exact hdone.symm
  | sentinel hp =>
      refine h.of_silent rfl ?_ (by rw [hp]; rfl) (by rw [hp]; rfl) (by rintro _ _ _ ⟨⟩) rfl
      rw [blocks_append (channelWrite_of_room hk none)]
      exact congrArg _ (List.append_nil _)
  | join hp hcons => exact h.of_silent rfl rfl (by rw [hp]; rfl) (by rw [hp]; rfl) (by rintro _ _ _ ⟨⟩) rfl
  | @read p ch hcons hch =>
      refine h.of_silent rfl ?_ rfl rfl (fun _ _ _ hw => hw) rfl
      rw [hcons, blocks, blocks, hch]
      rfl
  | @readNull ch hcons hch =>
      refine h.of_silent rfl ?_ rfl rfl (fun _ _ _ hw => hw) rfl
      rw [hcons, blocks, blocks, hch]
      rfl
  | @consume p hcons =>
      refine ⟨h.content, ?_, ?_⟩
      · have hmsgs := h.messages
        rw [hcons] at hmsgs
        rw [consumed_append]
        refine Eq.trans ?_ hmsgs
        exact List.append_assoc _ [s.mem p] _
      · rw [allocated_append]
        exact (congrArg List.length (List.append_nil _)).trans h.count
  | @free p hcons =>
      refine h.of_same rfl ?_ rfl rfl (fun _ _ _ hw => hw) rfl rfl rfl
      rw [hcons]
      rfl

/-! ## Every run ends -/

end ThreadApp

/-- A bound on the steps that are left to the producer, with four for each element that it
still writes. -/
def Producer.work (a : NbSysArgs) : Producer → Nat
  | .outer r => (a.roundNum.toNat - r.toNat) * (a.numPerRound.toNat * 8 + 2) + 8
  | .inner r i => (a.roundNum.toNat - (r.toNat + 1)) * (a.numPerRound.toNat * 8 + 2) +
      (a.numPerRound.toNat - i.toNat) * 8 + 9
  | .alloc r i => (a.roundNum.toNat - (r.toNat + 1)) * (a.numPerRound.toNat * 8 + 2) +
      (a.numPerRound.toNat - i.toNat) * 8 + 8
  | .copy r i _ => (a.roundNum.toNat - (r.toNat + 1)) * (a.numPerRound.toNat * 8 + 2) +
      (a.numPerRound.toNat - i.toNat) * 8 + 7
  | .write r i _ => (a.roundNum.toNat - (r.toNat + 1)) * (a.numPerRound.toNat * 8 + 2) +
      (a.numPerRound.toNat - i.toNat) * 8 + 6
  | .sentinel => 7
  | .join => 2
  | .returned => 0
  | .crashed => 0

def Consumer.work : Consumer → Nat
  | .got _ => 2
  | .freeing _ => 1
  | _ => 0

namespace ThreadApp

/-- A bound on the steps that are left. -/
def work (a : NbSysArgs) (s : ThreadApp) : Nat :=
  s.producer.work a + 4 * s.chan.length + s.consumer.work

theorem work_lt (hc : Control a cap s) (hk : Keeping a cap s e) (hnull : e ≠ .alloc none)
    (hs : Step a cap T s e s') : s'.work a < s.work a := by
  have hin := hc.inLoop
  cases hs with
  | @round r hp hr =>
      have hlt := UInt32.lt_iff_toNat_lt.mp hr
      have hleft : a.roundNum.toNat - r.toNat = a.roundNum.toNat - (r.toNat + 1) + 1 := by omega
      simp only [work, hp, Producer.work, hleft, Nat.succ_mul, UInt32.toNat_zero]
      omega
  | rounds hp hr =>
      simp only [work, hp, Producer.work]
      omega
  | prepare hp hi hm =>
      simp only [work, hp, Producer.work]
      omega
  | @roundDone r i hp hi =>
      rw [hp] at hin
      simp only [work, hp, Producer.work, toNat_succ (UInt32.lt_iff_toNat_lt.mp hin.1)]
      omega
  | alloc hp hlt hfree =>
      simp only [work, hp, Producer.work]
      omega
  | allocNull hp hnone => exact absurd rfl hnull
  | copy hp hm =>
      simp only [work, hp, Producer.work]
      omega
  | crash hp =>
      rw [hp] at hin
      exact absurd rfl hin.2
  | @write r i p m hp hm =>
      rw [hp] at hin
      have hlt := UInt32.lt_iff_toNat_lt.mp hin.2
      simp only [work, hp, Producer.work, toNat_succ hlt, channelWrite_of_room hk,
        List.length_append, List.length_singleton]
      omega
  | sentinel hp =>
      simp only [work, hp, Producer.work, channelWrite_of_room hk, List.length_append,
        List.length_singleton]
      omega
  | join hp hcons =>
      simp only [work, hp, Producer.work]
      omega
  | read hcons hch =>
      simp only [work, hcons, hch, Consumer.work, List.length_cons]
      omega
  | readNull hcons hch =>
      simp only [work, hcons, hch, Consumer.work, List.length_cons]
      omega
  | consume hcons =>
      simp only [work, hcons, Consumer.work]
      omega
  | free hcons =>
      simp only [work, hcons, Consumer.work]
      omega

/-- There is a step at which the program does not rely on the consumer in vain. -/
def Moves (a : NbSysArgs) (cap : Nat) (T : Bytes) (s : ThreadApp) : Prop :=
  ∃ e s', exec a cap T s e = some s' ∧ Keeping a cap s e

theorem poolSize_pos (ha : a.Sized) (hn : 1 ≤ a.numPerRound.toNat) (hr : 1 ≤ a.roundNum.toNat) :
    0 < poolSize a := by
  have htotal := ha.total_lt
  have hle : a.numPerRound.toNat ≤ a.total := Nat.le_mul_of_pos_right _ hr
  have hmul : poolSize a = a.numPerRound.toNat * 16 := by
    rw [poolSize, UInt32.toNat_mul]
    exact Nat.mod_eq_of_lt (show a.numPerRound.toNat * 16 < 2 ^ 32 by omega)
  omega

/-- With an idle consumer, the producer goes on until it waits for the consumer. -/
theorem moves_producer (ha : a.Sized) (hT : a.Prepared T) (hn : 1 ≤ a.numPerRound.toNat)
    (hcap : 0 < cap) (hc : Control a cap s) (hb : Blocks a s) (hcons : s.consumer = .read)
    (hch : s.chan = []) : Moves a cap T s := by
  have hin := hc.inLoop
  have hroom : s.chan.length < cap := by rw [hch]; exact hcap
  cases hp : s.producer with
  | outer r =>
      by_cases hr : r < a.roundNum
      · exact ⟨.outer, _, exec_of_step (.round hp hr), trivial⟩
      · exact ⟨.outer, _, exec_of_step (.rounds hp hr), trivial⟩
  | inner r i =>
      rw [hp] at hin
      by_cases hi : i < a.numPerRound
      · exact ⟨.inner, _, exec_of_step (.prepare hp hi (message_eq ha hT hin.1 hi)), trivial⟩
      · exact ⟨.inner, _, exec_of_step (.roundDone hp hi), trivial⟩
  | alloc r i =>
      rw [hp] at hin
      have hr : 1 ≤ a.roundNum.toNat := Nat.lt_of_le_of_lt (Nat.zero_le _)
        (UInt32.lt_iff_toNat_lt.mp hin.1)
      have hk : ∀ q, Keeping a cap s (.alloc q) := by
        intro q
        right
        rw [hch, hcons]
        exact poolSize_pos ha hn hr
      obtain ⟨p, hlt, hfree⟩ := exists_free (hb.length_lt hc hp (hk none))
      exact ⟨.alloc (some p), _, exec_of_step (.alloc hp hlt hfree), hk _⟩
  | copy r i p =>
      rw [hp] at hin
      cases p with
      | none => exact absurd rfl hin.2
      | some p =>
          exact ⟨.copy, _, exec_of_step (.copy hp (message_eq ha hT hin.1.1 hin.1.2)), trivial⟩
  | write r i p =>
      rw [hp] at hin
      exact ⟨.write, _, exec_of_step (.write hp (message_eq ha hT hin.1 hin.2)), hroom⟩
  | sentinel => exact ⟨.sentinel, _, exec_of_step (.sentinel hp), hroom⟩
  | join =>
      have hsent : s.producer.Sent := by rw [hp]; trivial
      have hchan := hc.chan_eq (by rw [hcons]; exact nofun)
      rw [if_pos hsent, hch] at hchan
      exact absurd hchan.symm (List.append_ne_nil_of_right_ne_nil _ (List.cons_ne_nil _ _))
  | returned => exact absurd ((hc.returned hp).symm.trans hcons) nofun
  | crashed =>
      rw [hp] at hin
      exact hin.elim

/-- The end: both threads are done, every message was received, and every block freed. -/
structure Delivered (a : NbSysArgs) (T : Bytes) (s : ThreadApp) : Prop where
  returned : s.producer = .returned
  exited : s.consumer = .exited
  received : consumed s.log = a.slices T 0 a.total
  allocated_length : (allocated s.log).length = a.total
  freed_eq : freed s.log = allocated s.log

theorem moves_or_returned (ha : a.Sized) (hT : a.Prepared T) (hn : 1 ≤ a.numPerRound.toNat)
    (hcap : 0 < cap) (hc : Control a cap s) (hb : Blocks a s) :
    Moves a cap T s ∨ s.producer = .returned ∧ s.consumer = .exited ∧ s.chan = [] := by
  cases hcons : s.consumer with
  | read =>
      cases hch : s.chan with
      | nil => exact Or.inl (moves_producer ha hT hn hcap hc hb hcons hch)
      | cons x ch =>
          cases x with
          | none => exact Or.inl ⟨.read, _, exec_of_step (.readNull hcons hch), trivial⟩
          | some p => exact Or.inl ⟨.read, _, exec_of_step (.read hcons hch), trivial⟩
  | got p => exact Or.inl ⟨.consume, _, exec_of_step (.consume hcons), trivial⟩
  | freeing p => exact Or.inl ⟨.free, _, exec_of_step (.free hcons), trivial⟩
  | exited =>
      obtain ⟨hsent, hch⟩ := hc.exited hcons
      cases hp : s.producer with
      | join => exact Or.inl ⟨.join, _, exec_of_step (.join hp hcons), trivial⟩
      | returned => exact Or.inr ⟨rfl, rfl, hch⟩
      | outer r => rw [hp] at hsent; exact hsent.elim
      | inner r i => rw [hp] at hsent; exact hsent.elim
      | alloc r i => rw [hp] at hsent; exact hsent.elim
      | copy r i p => rw [hp] at hsent; exact hsent.elim
      | write r i p => rw [hp] at hsent; exact hsent.elim
      | sentinel => rw [hp] at hsent; exact hsent.elim
      | crashed => rw [hp] at hsent; exact hsent.elim

/-! ## Whole runs -/

/-- The invariant of a run in which the program can rely on the consumer. -/
structure Good (a : NbSysArgs) (cap : Nat) (T : Bytes) (s : ThreadApp) : Prop where
  control : Control a cap s
  blocks : Blocks a s
  flow : Flow a T s

theorem good_start : Good a cap T start := ⟨control_start, blocks_start, flow_start⟩

theorem Good.step (ha : a.Sized) (hT : a.Prepared T) (h : Good a cap T s)
    (hk : Keeping a cap s e) (hs : exec a cap T s e = some s') :
    Good a cap T s' ∧ s'.work a < s.work a := by
  have hstep := step_of_exec hs
  have hnull := h.blocks.alloc_some h.control hk hstep
  exact ⟨⟨h.control.step hk hnull hstep, h.blocks.step h.control hk hstep,
    h.flow.step ha hT h.control h.blocks hk hstep⟩, work_lt h.control hk hnull hstep⟩

theorem Control.done_le (h : Control a cap s) : s.producer.done a ≤ a.total := by
  have hin := h.inLoop
  cases hp : s.producer with
  | outer r =>
      rw [hp] at hin
      exact (Nat.mul_le_mul_right _ (UInt32.le_iff_toNat_le.mp hin)).trans
        (Nat.le_of_eq (Nat.mul_comm _ _))
  | inner r i =>
      rw [hp] at hin
      calc a.position r i
          ≤ r.toNat * a.numPerRound.toNat + a.numPerRound.toNat :=
            Nat.add_le_add_left (UInt32.le_iff_toNat_le.mp hin.2) _
        _ ≤ a.roundNum.toNat * a.numPerRound.toNat :=
            NbSysArgs.slice_end_le (UInt32.lt_iff_toNat_lt.mp hin.1) _
        _ = a.total := Nat.mul_comm _ _
  | alloc r i =>
      rw [hp] at hin
      exact Nat.le_of_lt (NbSysArgs.position_lt hin.1 hin.2)
  | copy r i p =>
      rw [hp] at hin
      exact Nat.le_of_lt (NbSysArgs.position_lt hin.1.1 hin.1.2)
  | write r i p =>
      rw [hp] at hin
      exact Nat.le_of_lt (NbSysArgs.position_lt hin.1 hin.2)
  | sentinel => exact Nat.le_refl _
  | join => exact Nat.le_refl _
  | returned => exact Nat.le_refl _
  | crashed => exact Nat.le_refl _

/-- When both threads are done, everything was delivered. -/
theorem Good.delivered (h : Good a cap T s) (hp : s.producer = .returned)
    (hc : s.consumer = .exited) (hch : s.chan = []) : Delivered a T s := by
  have hblocks : s.blocks = [] := by rw [ThreadApp.blocks, hch]; rfl
  have hmsgs := h.flow.messages
  have hcount := h.flow.count
  have hused := h.blocks.used_eq
  have hfreed := h.blocks.freed_eq
  rw [hc, hp, hblocks] at hused
  rw [hc, hp, hblocks] at hmsgs
  rw [hp] at hcount
  refine ⟨hp, hc, ?_, hcount, ?_⟩
  · exact (List.append_nil _).symm.trans hmsgs
  · rw [← hfreed, hused]
    exact (List.append_nil _).symm

/-- As long as each write finds room in the channel (and each allocation a block, where
the pool is not larger than the channel), the consumer receives the messages in order,
each once and in a block that is freed once; the pool is never exhausted; and a run that
cannot go on has delivered all messages and the sentinel. -/
theorem thread_delivers (ha : a.Sized) (hn : 1 ≤ a.numPerRound.toNat)
    (hcap : 8 * a.numPerRound.toNat ≤ cap) {m : Bytes} (hm : m.length = a.tableBytes.toNat) :
    ∃ T, a.prepare m = some T ∧ (∀ i < a.total, a.IsMessage i (a.slice T i)) ∧
      ∀ es s, Run (fun s e s' => exec a cap T s e = some s' ∧ Keeping a cap s e) start es s →
        consumed s.log <+: a.slices T 0 a.total ∧
        .alloc none ∉ s.log ∧ s.producer ≠ .crashed ∧
        freed s.log <+: allocated s.log ∧ s.used.Nodup ∧
        es.length ≤ start.work a ∧
        (¬ Moves a cap T s → Delivered a T s) := by
  obtain ⟨T, hT, hprep⟩ := NbSysArgs.prepare_prepared ha hm
  refine ⟨T, hT, hprep.message, fun es s hrun => ?_⟩
  have hstep : ∀ s e s', Good a cap T s → exec a cap T s e = some s' ∧ Keeping a cap s e →
      Good a cap T s' ∧ s'.work a < s.work a := fun s e s' h hs => h.step ha hprep hs.2 hs.1
  have hgood : Good a cap T s := hrun.invariant (fun s e s' h hs => (hstep s e s' h hs).1) good_start
  have hlen : es.length + s.work a ≤ start.work a := hrun.length_add_le hstep good_start
  refine ⟨?_, hgood.blocks.notNull, ?_, ?_, hgood.blocks.nodup, by omega, ?_⟩
  · have hfirst : consumed s.log <+: a.slices T 0 (s.producer.done a) :=
      ⟨_, hgood.flow.messages⟩
    exact hfirst.trans (NbSysArgs.slices_isPrefix T 0 hgood.control.done_le)
  · intro hp
    have hin := hgood.control.inLoop
    rw [hp] at hin
    exact hin
  · exact ⟨_, hgood.blocks.freed_eq⟩
  · intro hstuck
    have hpos : 0 < cap := by omega
    rcases moves_or_returned ha hprep hn hpos hgood.control hgood.blocks with
      hmoves | ⟨hp, hc, hch⟩
    · exact absurd hmoves hstuck
    · exact hgood.delivered hp hc hch

/-- Nine rounds of one message. -/
def nineRounds : NbSysArgs := ⟨7, 9, 1, 0, 16, 0⟩

theorem nineRounds_sized : nineRounds.Sized := ⟨by decide, by decide⟩

theorem thread_delivers_nine_rounds :
    ∃ T, nineRounds.prepare (List.replicate 144 0) = some T ∧
      ∀ es s, Run (fun s e s' => exec nineRounds 8 T s e = some s' ∧ Keeping nineRounds 8 s e)
        start es s → es.length ≤ 98 ∧ (¬ Moves nineRounds 8 T s → Delivered nineRounds T s) := by
  obtain ⟨T, hT, _, hruns⟩ := thread_delivers nineRounds_sized (by decide)
    (show 8 * nineRounds.numPerRound.toNat ≤ 8 by decide)
    ((List.length_replicate (n := 144) (a := 0)).trans (by decide))
  refine ⟨T, hT, fun es s hrun => ?_⟩
  obtain ⟨_, _, _, _, _, hlen, hends⟩ := hruns es s hrun
  exact ⟨hlen, hends⟩

/-! ## A consumer that is late -/

/-- One round, with the block `p`. -/
def roundEvents (p : Nat) : List ThreadEvent := [.outer, .inner, .alloc (some p), .copy, .write, .inner]

/-- The producer is through before the consumer reads anything. -/
def lateConsumer : List ThreadEvent :=
  (List.range 9).flatMap roundEvents ++ [.outer, .sentinel] ++
    (List.range 8).flatMap fun _ => [.read, .consume, .free]

/-- The steps of some events, one after the other. -/
def execAll (a : NbSysArgs) (cap : Nat) (T : Bytes) (s : ThreadApp) (es : List ThreadEvent) :
    Option ThreadApp := es.foldlM (exec a cap T) s

theorem run_of_execAll {es : List ThreadEvent} (h : execAll a cap T s es = some s') :
    Run (fun s e s' => exec a cap T s e = some s') s es s' := by
  induction es generalizing s with
  | nil =>
      obtain rfl := Option.some.inj h
      exact .nil _
  | cons e es ih =>
      rw [execAll, List.foldlM_cons, Option.bind_eq_bind, Option.bind_eq_some_iff] at h
      obtain ⟨t, hstep, hrest⟩ := h
      exact .cons hstep (ih hrest)

/-- Both threads wait for each other. -/
theorem exec_of_waiting (hp : s.producer = .join) (hc : s.consumer = .read) (hch : s.chan = [])
    (e : ThreadEvent) : exec a cap T s e = none := by
  cases e with
  | alloc p =>
      cases p with
      | none => simp only [exec, hp]
      | some p => simp only [exec, hp]
  | outer => simp only [exec, hp]
  | inner => simp only [exec, hp]
  | copy => simp only [exec, hp]
  | write => simp only [exec, hp]
  | sentinel => simp only [exec, hp]
  | join => simp only [exec, hp, hc]
  | read => simp only [exec, hc, hch]
  | consume => simp only [exec, hc]
  | free => simp only [exec, hc]

/-- A channel with room for eight: the ninth message is lost with its block, and so is the
sentinel, after which both threads wait for ever. -/
theorem full_channel_loses :
    nineRounds.Sized ∧ nineRounds.total = 9 ∧
      ∃ T s, nineRounds.prepare (List.replicate 144 0) = some T ∧
        Run (fun s e s' => exec nineRounds 8 T s e = some s') start lateConsumer s ∧
        (s.producer = .join ∧ s.consumer = .read ∧ ∀ e, exec nineRounds 8 T s e = none) ∧
        consumed s.log = nineRounds.slices T 0 8 ∧
        allocated s.log = List.range 9 ∧ freed s.log = List.range 8 := by
  have hobs : ((nineRounds.prepare (List.replicate 144 0)).bind fun T =>
      (execAll nineRounds 8 T start lateConsumer).map fun s =>
        decide ((s.producer = .join ∧ s.consumer = .read ∧ s.chan = []) ∧
          consumed s.log = nineRounds.slices T 0 8 ∧ allocated s.log = List.range 9 ∧
          freed s.log = List.range 8)) = some true := by
    decide +kernel
  simp only [Option.bind_eq_some_iff, Option.map_eq_some_iff, decide_eq_true_eq] at hobs
  obtain ⟨T, hT, s, hs, ⟨hp, hc, hch⟩, hconsumed, halloc, hfreed⟩ := hobs
  exact ⟨nineRounds_sized, by decide, T, s, hT, run_of_execAll hs,
    ⟨hp, hc, exec_of_waiting hp hc hch⟩, hconsumed, halloc, hfreed⟩

end ThreadApp

end NetBench
