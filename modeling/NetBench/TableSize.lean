/-
# `NetBench.TableSize` — the three products of the message table

The size of the block, the bound of the preparation loop and the offsets of the senders
are separate `uint32_t` products; only the pointer of the preparation loop advances in
64 bits.  They agree exactly if the table has less than `2^32` bytes
(`table_consistent_iff`).
-/
import NetBench.TcpClient

namespace NetBench

open Lib

namespace NbSysArgs

variable {a : NbSysArgs}

/-- Where `tcp_client_on_timer` reads message `i` of round `r`: at the offset of the
round, after `i` times `p += msg_size`. -/
def clientOffset (a : NbSysArgs) (r i : UInt32) : Nat :=
  (r * a.numPerRound * a.msgSize).toNat + i.toNat * a.msgSize.toNat

/-- `seq` and `offset` of `producer`. -/
def producerSeq (a : NbSysArgs) (r i : UInt32) : UInt32 := r * a.numPerRound + i

def producerOffset (a : NbSysArgs) (r i : UInt32) : Nat := (a.msgSize * a.producerSeq r i).toNat

/-! ## The pointer of the client's loop -/

end NbSysArgs

namespace TcpClient

variable {β : Type} {a : NbSysArgs} {B : BytesBuffer β} {b₀ : β} {s s' : TcpClient β}

/-- The loop stands at the offset of its message. -/
def AtOffset (a : NbSysArgs) (s : TcpClient β) : Prop :=
  ∀ l, s.sending = some l → l.p = a.clientOffset s.roundIndex l.i

theorem AtOffset.step (h : AtOffset a s) {e : ClientEvent} (hs : Step a B b₀ s e s') :
    AtOffset a s' := by
  cases hs with
  | connected => exact h
  | @add c ts nodelay hsend hc =>
      intro l hl
      cases nodelay with
      | true => cases hsend.symm.trans hl
      | false => cases hsend.symm.trans hl
  | @timer ts hsend =>
      intro l hl
      rcases onTimer_cases a ts s with ⟨_, heq⟩ | heq | ⟨c, _, _, _, heq⟩
      · rw [heq] at hl
        cases hsend.symm.trans hl
      · rw [heq] at hl
        cases hsend.symm.trans hl
      · rw [heq] at hl ⊢
        cases hl
        simp [NbSysArgs.clientOffset]
  | @send _ l c w hl hi hc hsend =>
      simp only [sendOne, Option.bind_eq_bind, Option.bind_eq_some_iff] at hsend
      obtain ⟨m, _, datas, _, buf, _, hsend⟩ := hsend
      intro l' hl'
      split at hsend
      · cases hsend
        cases hl'
        show l.p + a.msgSize.toNat = _
        rw [h l hl, NbSysArgs.clientOffset, NbSysArgs.clientOffset,
          toNat_succ (UInt32.lt_iff_toNat_lt.mp hi), Nat.succ_mul, Nat.add_assoc]
      · cases hsend
        cases hl'
  | roundDone =>
      intro l hl
      cases hl
  | @message _ c fuel cks hsend hc hmsg =>
      intro l hl
      unfold onMessage at hmsg
      split at hmsg
      · cases hmsg
        exact h l hl
      · rw [Option.map_eq_some_iff] at hmsg
        obtain ⟨r, _, rfl⟩ := hmsg
        exact h l hl
  | close => exact h
  | release => exact h

/-- In every run: where the loop stands. -/
theorem atOffset_of_run {ts : Timespec} {T : Bytes} {es : List ClientEvent}
    (hrun : Run (Step a B b₀) (start ts T) es s) : AtOffset a s :=
  hrun.invariant (I := AtOffset a) (fun _ _ _ h hs => h.step hs) (fun _ h => nomatch h)

end TcpClient

namespace NbSysArgs

variable {a : NbSysArgs}

/-! ## When the products agree -/

/-- Message `i` of round `r` as a sequence over the integers. -/
def position (a : NbSysArgs) (r i : UInt32) : Nat := r.toNat * a.numPerRound.toNat + i.toNat

/-- A sender that reads at `offset r i` finds the slice that was prepared for the sequence
`r * num_per_round + i`. -/
def Reads (a : NbSysArgs) (T : Bytes) (offset : UInt32 → UInt32 → Nat) : Prop :=
  ∀ r i, r < a.roundNum → i < a.numPerRound →
    offset r i = a.position r i * a.msgSize.toNat ∧
    ∃ b, Block.load T (offset r i) a.msgSize.toNat = some b ∧ a.IsMessage (a.position r i) b

/-- On every block of the size given to `malloc` the preparation loop stays inside and
prepares a slice for every sequence over the integers, and both senders read the slices of
their messages. -/
def TableConsistent (a : NbSysArgs) : Prop :=
  ∀ m : Bytes, m.length = a.tableBytes.toNat → ∃ T, a.prepare m = some T ∧
    (∀ i < a.total, a.IsMessage i (a.slice T i)) ∧
    a.Reads T a.clientOffset ∧ a.Reads T a.producerOffset

theorem position_lt {r i : UInt32} (hr : r < a.roundNum) (hi : i < a.numPerRound) :
    a.position r i < a.total := by
  rw [UInt32.lt_iff_toNat_lt] at hr hi
  calc r.toNat * a.numPerRound.toNat + i.toNat
      < r.toNat * a.numPerRound.toNat + a.numPerRound.toNat := Nat.add_lt_add_left hi _
    _ ≤ a.roundNum.toNat * a.numPerRound.toNat := slice_end_le hr _
    _ = a.total := Nat.mul_comm _ _

theorem position_succ {r i : UInt32} (hi : i < a.numPerRound) :
    a.position r (i + 1) = a.position r i + 1 := by
  rw [position, position, toNat_succ (UInt32.lt_iff_toNat_lt.mp hi), Nat.add_assoc]

/-- A round ends where the next one begins. -/
theorem position_end {r i : UInt32} (hr : r < a.roundNum) (hi : i ≤ a.numPerRound)
    (hend : ¬ i < a.numPerRound) : a.position r i = (r + 1).toNat * a.numPerRound.toNat := by
  have hle := UInt32.le_iff_toNat_le.mp hi
  have hge : a.numPerRound.toNat ≤ i.toNat := Nat.not_lt.mp fun hlt =>
    hend (UInt32.lt_iff_toNat_lt.mpr hlt)
  rw [toNat_succ (UInt32.lt_iff_toNat_lt.mp hr), Nat.succ_mul, position, Nat.le_antisymm hle hge]

/-- A sender that computes the right offset reads the right slice. -/
theorem Prepared.reads {T : Bytes} (hT : a.Prepared T) {offset : UInt32 → UInt32 → Nat}
    (h : ∀ r i, r < a.roundNum → i < a.numPerRound →
      offset r i = a.position r i * a.msgSize.toNat) : a.Reads T offset := by
  intro r i hr hi
  have hlt := position_lt hr hi
  refine ⟨h r i hr hi, a.slice T (a.position r i), ?_, hT.message _ hlt⟩
  rw [h r i hr hi]
  exact load_slice hT.length_eq hlt

theorem Sized.clientOffset_eq (ha : a.Sized) {r i : UInt32} (hr : r < a.roundNum) :
    a.clientOffset r i = a.position r i * a.msgSize.toNat := by
  have hle : r.toNat ≤ a.roundNum.toNat := Nat.le_of_lt (UInt32.lt_iff_toNat_lt.mp hr)
  rw [clientOffset, offset_eq ha.prod hle, position, Nat.add_mul]

theorem Sized.producerSeq_toNat (ha : a.Sized) {r i : UInt32} (hr : r < a.roundNum)
    (hi : i < a.numPerRound) : (a.producerSeq r i).toNat = a.position r i := by
  have hlt := position_lt hr hi
  have htotal := ha.total_lt
  have hof : a.producerSeq r i = UInt32.ofNat (a.position r i) := by
    rw [producerSeq, seq_eq, position, UInt32.ofNat_add, UInt32.ofNat_toNat]
  rw [hof]
  exact UInt32.toNat_ofNat_of_lt' (show _ < 2 ^ 32 by omega)

theorem Sized.producerOffset_eq (ha : a.Sized) {r i : UInt32} (hr : r < a.roundNum)
    (hi : i < a.numPerRound) : a.producerOffset r i = a.position r i * a.msgSize.toNat := by
  have hprod := ha.prod
  have hlt : a.msgSize.toNat * a.position r i < 2 ^ 32 := by
    calc a.msgSize.toNat * a.position r i ≤ a.msgSize.toNat * a.total :=
          Nat.mul_le_mul_left _ (Nat.le_of_lt (position_lt hr hi))
      _ = a.msgSize.toNat * a.numPerRound.toNat * a.roundNum.toNat := (Nat.mul_assoc ..).symm
      _ < 2 ^ 32 := hprod
  rw [producerOffset, UInt32.toNat_mul, ha.producerSeq_toNat hr hi, Nat.mod_eq_of_lt hlt,
    Nat.mul_comm]

/-- A block that is too small does not hold the last slice. -/
theorem length_of_message {T : Bytes} {i : Nat} (hpos : 0 < a.msgSize.toNat)
    (h : a.IsMessage i (a.slice T i)) : i * a.msgSize.toNat + a.msgSize.toNat ≤ T.length := by
  have hlen := h.1
  rw [slice, List.length_take, List.length_drop] at hlen
  omega

/-- For the arguments that `run` admits, the block, the loop and the senders agree exactly
if the table has less than `2^32` bytes. -/
theorem table_consistent_iff (h16 : 16 ≤ a.msgSize.toNat) : a.TableConsistent ↔
    a.msgSize.toNat * a.numPerRound.toNat * a.roundNum.toNat < 2 ^ 32 := by
  constructor
  · intro h
    by_contra hlarge
    have hbytes := a.tableBytes.toNat_lt
    have htotal : 0 < a.total := by
      rcases Nat.eq_zero_or_pos a.total with hz | hpos
      · rw [Nat.mul_assoc] at hlarge
        rw [total] at hz
        rw [hz, Nat.mul_zero] at hlarge
        omega
      · exact hpos
    obtain ⟨T, hT, hmsg, -⟩ := h (List.replicate a.tableBytes.toNat 0) List.length_replicate
    have hlen : T.length = a.tableBytes.toNat :=
      (length_prepare hT).trans List.length_replicate
    -- the last slice ends at the size of the table over the integers
    have hlast := length_of_message (by omega) (hmsg (a.total - 1) (by omega))
    rw [← Nat.succ_mul, Nat.succ_eq_add_one, Nat.sub_add_cancel htotal, total, Nat.mul_comm,
      ← Nat.mul_assoc] at hlast
    omega
  · intro hprod m hm
    have ha : a.Sized := ⟨h16, hprod⟩
    obtain ⟨T, hT, hprep⟩ := prepare_prepared ha hm
    exact ⟨T, hT, hprep.message, hprep.reads fun _ _ hr _ => ha.clientOffset_eq hr,
      hprep.reads fun _ _ hr hi => ha.producerOffset_eq hr hi⟩

/-- Two messages of `2^31` bytes. -/
def twoHuge : NbSysArgs := ⟨7, 2, 1, 0, 2147483648, 0⟩

/-- The block for them is empty, and the first store leaves it. -/
theorem twoHuge_leaves_block :
    16 ≤ twoHuge.msgSize ∧ twoHuge.tableBytes = 0 ∧ twoHuge.prepare [] = none ∧
      ¬ twoHuge.TableConsistent := by
  have hnone : twoHuge.prepare [] = none := by decide
  refine ⟨by decide, by decide, hnone, fun h => ?_⟩
  obtain ⟨T, hT, -⟩ := h [] rfl
  exact nomatch hnone.symm.trans hT

/-- Two rounds of a thousand messages of a kilobyte. -/
theorem kilobytes_consistent : (NbSysArgs.mk 7 2 1000 0 1024 0).TableConsistent :=
  (table_consistent_iff (by decide)).mpr (by decide)

end NbSysArgs

end NetBench
