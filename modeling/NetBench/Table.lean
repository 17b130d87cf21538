/-
# `NetBench.Table` — the prepared messages

`run` of the clients allocates one block for all messages of the run and writes
the header and the data of each into its slice; what follows in a slice is
whatever `malloc` returned.  The size of the block and the number of slices are
`uint32_t` products.

For arguments that are `Sized`, the loop stays in the block and leaves a table in
which slice `i` is a message with sequence `i` (`prepare_prepared`).
-/
import NetBench.Lib.Block
import NetBench.Msg

namespace NetBench

open Lib

/-- The fields of `nb_sys_args_t` that the clients compute with. -/
structure NbSysArgs where
  userId : UInt32
  roundNum : UInt32
  numPerRound : UInt32
  roundIntervalMs : UInt32
  msgSize : UInt32
  cliWait : UInt32
  deriving DecidableEq, Repr

namespace NbSysArgs

variable (a : NbSysArgs)

/-! ## The source -/

/-- The size given to `malloc`. -/
def tableBytes : UInt32 := a.msgSize * a.numPerRound * a.roundNum

/-- The bound of the preparation loop. -/
def tableCount : UInt32 := a.numPerRound * a.roundNum

/-- `hdr` and `data` of message `i`. -/
def msgHdr : MsgHdr := ⟨1, a.msgSize - UInt32.ofNat sizeofMsgHdr⟩

def msgData (i : UInt32) : MsgData := ⟨a.userId, i⟩

/-- The body of the preparation loop, at the pointer `p`. -/
def prepareSlice (i : UInt32) (p : Nat) (m : Bytes) : Option Bytes := do
  let m ← Block.store m p a.msgHdr.encode
  Block.store m (p + sizeofMsgHdr) (a.msgData i).encode

/-- The first `k` iterations; the pointer advances by `msg_size` in each. -/
def prepareUpTo (m : Bytes) : Nat → Option Bytes
  | 0 => some m
  | k + 1 => do
      let m ← prepareUpTo m k
      a.prepareSlice (UInt32.ofNat k) (k * a.msgSize.toNat) m

/-- The preparation loop on a block with the contents `m`. -/
def prepare (m : Bytes) : Option Bytes := a.prepareUpTo m a.tableCount.toNat

/-! ## The table -/

/-- The number of messages, over the integers. -/
def total : Nat := a.numPerRound.toNat * a.roundNum.toNat

/-- `16 ≤ msg_size < 2^31`, and the whole table has less than `2^32` bytes. -/
structure Fits : Prop where
  ge : 16 ≤ a.msgSize.toNat
  lt : a.msgSize.toNat < 2 ^ 31
  prod : a.msgSize.toNat * a.numPerRound.toNat * a.roundNum.toNat < 2 ^ 32

/-- `16 ≤ msg_size`, and the whole table has less than `2^32` bytes. -/
structure Sized : Prop where
  ge : 16 ≤ a.msgSize.toNat
  prod : a.msgSize.toNat * a.numPerRound.toNat * a.roundNum.toNat < 2 ^ 32

/-- `b` is a message with sequence `i`: header, data, and the rest of `msg_size` bytes. -/
def IsMessage (i : Nat) (b : Bytes) : Prop :=
  b.length = a.msgSize.toNat ∧
    ∃ rest, b = a.msgHdr.encode ++ ((a.msgData (UInt32.ofNat i)).encode ++ rest)

/-- The `i`-th slice of a table. -/
def slice (T : Bytes) (i : Nat) : Bytes := (T.drop (i * a.msgSize.toNat)).take a.msgSize.toNat

/-- The slices `i, i + 1, …`, `k` of them. -/
def slices (T : Bytes) (i k : Nat) : List Bytes := (List.range' i k).map (a.slice T)

/-- A block with every message in its place. -/
structure Prepared (T : Bytes) : Prop where
  length_eq : T.length = a.total * a.msgSize.toNat
  message : ∀ i < a.total, a.IsMessage i (a.slice T i)

variable {a}

theorem Fits.sized (h : a.Fits) : a.Sized := ⟨h.ge, h.prod⟩

theorem tableBytes_toNat
    (hprod : a.msgSize.toNat * a.numPerRound.toNat * a.roundNum.toNat < 2 ^ 32) :
    a.tableBytes.toNat = a.total * a.msgSize.toNat := by
  have h₁ : a.msgSize.toNat * a.numPerRound.toNat ≤ a.msgSize.toNat * a.numPerRound.toNat *
      a.roundNum.toNat ∨ a.roundNum.toNat = 0 := by
    rcases Nat.eq_zero_or_pos a.roundNum.toNat with hz | hpos
    · exact Or.inr hz
    · exact Or.inl (Nat.le_mul_of_pos_right _ hpos)
  have hcomm : a.total * a.msgSize.toNat =
      a.msgSize.toNat * a.numPerRound.toNat * a.roundNum.toNat := by
    rw [total, Nat.mul_comm, Nat.mul_assoc]
  rw [hcomm, tableBytes, UInt32.toNat_mul, UInt32.toNat_mul]
  rcases h₁ with hle | hz
  · rw [Nat.mod_eq_of_lt (show a.msgSize.toNat * a.numPerRound.toNat < 2 ^ 32 by omega),
      Nat.mod_eq_of_lt hprod]
  · simp [hz]

theorem Sized.total_lt (h : a.Sized) : a.total < 2 ^ 28 := by
  have hprod := h.prod
  have hge := h.ge
  have hle : 16 * a.total ≤ a.msgSize.toNat * a.numPerRound.toNat * a.roundNum.toNat := by
    rw [Nat.mul_assoc]
    exact Nat.mul_le_mul_right _ hge
  omega

theorem Sized.tableCount_toNat (h : a.Sized) : a.tableCount.toNat = a.total := by
  have := h.total_lt
  rw [tableCount, UInt32.toNat_mul]
  exact Nat.mod_eq_of_lt (show a.total < 2 ^ 32 by omega)

theorem msgHdr_payloadLen (h : 16 ≤ a.msgSize.toNat) :
    a.msgHdr.payloadLen.toNat = a.msgSize.toNat - 8 := by
  have hle : UInt32.ofNat sizeofMsgHdr ≤ a.msgSize := by
    rw [UInt32.le_iff_toNat_le]
    exact Nat.le_trans (by decide) h
  exact UInt32.toNat_sub_of_le _ _ hle

/-- The slice below `i` lies before the `i`-th one. -/
theorem slice_end_le {i j : Nat} (h : i < j) (n : Nat) : i * n + n ≤ j * n := by
  calc i * n + n = (i + 1) * n := (Nat.succ_mul i n).symm
    _ ≤ j * n := Nat.mul_le_mul_right n h

theorem load_slice {T : Bytes} (hlen : T.length = a.total * a.msgSize.toNat) {i : Nat}
    (hi : i < a.total) :
    Block.load T (i * a.msgSize.toNat) a.msgSize.toNat = some (a.slice T i) :=
  Block.load_of_le (hlen ▸ slice_end_le hi _)

/-- A message has its parts where the structures have their fields. -/
theorem IsMessage.hdr {i : Nat} {b : Bytes} (h : a.IsMessage i b) : MsgHdr.decode b = a.msgHdr := by
  obtain ⟨_, rest, rfl⟩ := h
  exact MsgHdr.decode_encode _ _

theorem IsMessage.data {i : Nat} {b : Bytes} (h : a.IsMessage i b) :
    MsgData.decode (b.drop 8) = a.msgData (UInt32.ofNat i) := by
  obtain ⟨_, rest, rfl⟩ := h
  rw [List.drop_left' (MsgHdr.length_encode _)]
  exact MsgData.decode_encode _ _

/-- A slice with a message in it has room for the data. -/
theorem IsMessage.ge {i : Nat} {b : Bytes} (h : a.IsMessage i b) : 16 ≤ a.msgSize.toNat := by
  obtain ⟨hlen, rest, rfl⟩ := h
  rw [List.length_append, List.length_append, MsgHdr.length_encode, MsgData.length_encode] at hlen
  omega

theorem IsMessage.isFrame {i : Nat} {b : Bytes} (h : a.IsMessage i b) : nbFraming.IsFrame b := by
  have hge := h.ge
  rw [isFrame_iff, h.hdr, msgHdr_payloadLen hge, h.1]
  omega

/-- What `tcp_client_on_timer` reads of a slice before it sends it. -/
theorem Prepared.load_head {T : Bytes} (hT : a.Prepared T) {i : Nat}
    (hi : i < a.total) : ∃ m, Block.load T (i * a.msgSize.toNat) 16 = some m ∧
      MsgHdr.decode m = a.msgHdr ∧ MsgData.decode (m.drop 8) = a.msgData (UInt32.ofNat i) := by
  have hge := (hT.message i hi).ge
  obtain ⟨_, rest, hb⟩ := hT.message i hi
  have hload := Block.load_sub (k := 0) (l := 16) (load_slice hT.length_eq hi) (by omega)
  have hhead : ((a.slice T i).drop 0).take 16 =
      a.msgHdr.encode ++ (a.msgData (UInt32.ofNat i)).encode := by
    rw [hb, ← List.append_assoc]
    exact List.take_left' rfl
  rw [hhead] at hload
  refine ⟨_, hload, MsgHdr.decode_encode _ _, ?_⟩
  rw [List.drop_left' (MsgHdr.length_encode _), ← List.append_nil (MsgData.encode _)]
  exact MsgData.decode_encode _ _

/-- The sequence it writes back is the one that is there. -/
theorem Prepared.store_seq {T : Bytes} (hT : a.Prepared T) {i : Nat}
    (hi : i < a.total) :
    Block.store T (i * a.msgSize.toNat + 12) (u32Bytes (UInt32.ofNat i)) = some T := by
  have hge := (hT.message i hi).ge
  obtain ⟨_, rest, hb⟩ := hT.message i hi
  have hload := Block.load_sub (k := 12) (l := 4) (load_slice hT.length_eq hi) (by omega)
  have hseq : ((a.slice T i).drop 12).take 4 = u32Bytes (UInt32.ofNat i) := by
    have hcut : a.slice T i = (a.msgHdr.encode ++ u32Bytes a.userId) ++
        (u32Bytes (UInt32.ofNat i) ++ rest) := by
      rw [hb]
      simp only [MsgData.encode, msgData, List.append_assoc]
    have h12 : (a.msgHdr.encode ++ u32Bytes a.userId).length = 12 := rfl
    rw [hcut, List.drop_left' h12]
    exact List.take_left' rfl
  rw [hseq] at hload
  exact Block.store_of_load hload

/-! ### The pointer of a round -/

/-- The first sequence of round `r`. -/
theorem seq_eq (a : NbSysArgs) (r : UInt32) :
    r * a.numPerRound = UInt32.ofNat (r.toNat * a.numPerRound.toNat) := by
  rw [UInt32.ofNat_mul, UInt32.ofNat_toNat, UInt32.ofNat_toNat]

/-- Its offset in the table. -/
theorem offset_eq (hprod : a.msgSize.toNat * a.numPerRound.toNat * a.roundNum.toNat < 2 ^ 32)
    {r : UInt32} (hr : r.toNat ≤ a.roundNum.toNat) :
    (r * a.numPerRound * a.msgSize).toNat =
      r.toNat * a.numPerRound.toNat * a.msgSize.toNat := by
  have hle : r.toNat * a.numPerRound.toNat * a.msgSize.toNat ≤
      a.msgSize.toNat * a.numPerRound.toNat * a.roundNum.toNat := by
    calc r.toNat * a.numPerRound.toNat * a.msgSize.toNat
        ≤ a.roundNum.toNat * a.numPerRound.toNat * a.msgSize.toNat :=
          Nat.mul_le_mul_right _ (Nat.mul_le_mul_right _ hr)
      _ = a.msgSize.toNat * a.numPerRound.toNat * a.roundNum.toNat := by
          rw [Nat.mul_comm, Nat.mul_comm a.roundNum.toNat, Nat.mul_assoc]
  have hof : r * a.numPerRound * a.msgSize =
      UInt32.ofNat (r.toNat * a.numPerRound.toNat * a.msgSize.toNat) := by
    rw [UInt32.ofNat_mul, ← seq_eq, UInt32.ofNat_toNat]
  rw [hof]
  exact UInt32.toNat_ofNat_of_lt' (by show _ < 2 ^ 32; omega)

/-! ### Several slices -/

theorem slices_succ (T : Bytes) (i k : Nat) :
    a.slices T i (k + 1) = a.slices T i k ++ [a.slice T (i + k)] := by
  simp [slices, List.range'_1_concat]

/-- Fewer slices are a prefix. -/
theorem slices_isPrefix (T : Bytes) (i : Nat) {k l : Nat} (h : k ≤ l) :
    a.slices T i k <+: a.slices T i l := by
  obtain ⟨d, rfl⟩ := Nat.exists_eq_add_of_le h
  refine ⟨(List.range' (i + k) d).map (a.slice T), ?_⟩
  rw [slices, slices, ← List.map_append, List.range'_append_1]

theorem flatten_isPrefix {α : Type} {l m : List (List α)} (h : l <+: m) :
    l.flatten <+: m.flatten := by
  obtain ⟨r, rfl⟩ := h
  exact ⟨r.flatten, List.flatten_append.symm⟩

/-! ## The loop -/

theorem length_prepareUpTo {m : Bytes} : ∀ (k : Nat) {m' : Bytes}, a.prepareUpTo m k = some m' →
    m'.length = m.length
  | 0, _, h => congrArg List.length (Option.some.inj h).symm
  | k + 1, m', h => by
      simp only [prepareUpTo, prepareSlice, Option.bind_eq_bind, Option.bind_eq_some_iff] at h
      obtain ⟨m₁, h₁, m₂, h₂, h₃⟩ := h
      rw [Block.length_store h₃, Block.length_store h₂, length_prepareUpTo k h₁]

/-- The loop does not change the size of the block. -/
theorem length_prepare {m m' : Bytes} (h : a.prepare m = some m') : m'.length = m.length :=
  length_prepareUpTo _ h

/-- One iteration writes message `i` into its slice and leaves the others alone. -/
theorem prepareSlice_spec (ha : a.Sized) {m : Bytes} (hlen : m.length = a.total * a.msgSize.toNat)
    {k : Nat} (hk : k < a.total) :
    ∃ m', a.prepareSlice (UInt32.ofNat k) (k * a.msgSize.toNat) m = some m' ∧
      m'.length = m.length ∧ a.IsMessage k (a.slice m' k) ∧
      ∀ j < k, a.slice m' j = a.slice m j := by
  have hge := ha.ge
  have hend : k * a.msgSize.toNat + a.msgSize.toNat ≤ m.length := hlen ▸ slice_end_le hk _
  have hfit₁ : k * a.msgSize.toNat + a.msgHdr.encode.length ≤ m.length := by
    rw [MsgHdr.length_encode]
    omega
  have hst₁ := Block.store_of_le hfit₁
  generalize hm₁ : m.take _ ++ (a.msgHdr.encode ++ m.drop _) = m₁ at hst₁
  have hlen₁ := Block.length_store hst₁
  have hfit₂ : k * a.msgSize.toNat + sizeofMsgHdr + (a.msgData (UInt32.ofNat k)).encode.length ≤
      m₁.length := by
    rw [MsgData.length_encode, hlen₁]
    show k * a.msgSize.toNat + 8 + 8 ≤ m.length
    omega
  have hst₂ := Block.store_of_le hfit₂
  generalize hm₂ : m₁.take _ ++ ((a.msgData (UInt32.ofNat k)).encode ++ m₁.drop _) = m₂ at hst₂
  have hlen₂ := (Block.length_store hst₂).trans hlen₁
  refine ⟨m₂, ?_, hlen₂, ⟨?_, ?_⟩, ?_⟩
  · simp only [prepareSlice, hst₁, Option.bind_eq_bind, Option.bind_some]
    exact hst₂
  · exact Block.length_of_load (load_slice (hlen₂.trans hlen) hk)
  · -- the two parts of the slice, loaded back
    have hload := load_slice (a := a) (hlen₂.trans hlen) hk
    have hhdr : Block.load m₂ (k * a.msgSize.toNat) 8 = some a.msgHdr.encode := by
      rw [Block.load_store_disjoint hst₂ (Or.inl (Nat.le_refl _))]
      exact Block.load_store_same hst₁
    have hdata : Block.load m₂ (k * a.msgSize.toNat + 8) 8 =
        some (a.msgData (UInt32.ofNat k)).encode :=
      Block.load_store_same hst₂
    have h₁ := Block.load_sub (k := 0) (l := 8) hload (by omega)
    have h₂ := Block.load_sub (k := 8) (l := 8) hload (by omega)
    rw [Nat.add_zero, hhdr, Option.some.injEq, List.drop_zero] at h₁
    rw [hdata, Option.some.injEq] at h₂
    refine ⟨((a.slice m₂ k).drop 8).drop 8, ?_⟩
    rw [h₁, h₂, List.take_append_drop, List.take_append_drop]
  · intro j hj
    have hjk : j * a.msgSize.toNat + a.msgSize.toNat ≤ k * a.msgSize.toNat := slice_end_le hj _
    have hl₂ := load_slice (a := a) (hlen₂.trans hlen) (Nat.lt_trans hj hk)
    have hl := load_slice (a := a) hlen (Nat.lt_trans hj hk)
    rw [Block.load_store_disjoint hst₂ (Or.inl (Nat.le_trans hjk (Nat.le_add_right _ _))),
      Block.load_store_disjoint hst₁ (Or.inl hjk), hl] at hl₂
    exact (Option.some.inj hl₂).symm

/-- After `k` iterations the first `k` slices are their messages. -/
theorem prepareUpTo_spec (ha : a.Sized) {m : Bytes} (hlen : m.length = a.total * a.msgSize.toNat) :
    ∀ k ≤ a.total, ∃ m', a.prepareUpTo m k = some m' ∧ m'.length = m.length ∧
      ∀ j < k, a.IsMessage j (a.slice m' j)
  | 0, _ => ⟨m, rfl, rfl, fun _ hj => absurd hj (Nat.not_lt_zero _)⟩
  | k + 1, hk => by
      obtain ⟨m₁, h₁, hlen₁, hmsg⟩ := prepareUpTo_spec ha hlen k (Nat.le_of_succ_le hk)
      obtain ⟨m₂, h₂, hlen₂, hnew, hold⟩ := prepareSlice_spec ha (hlen₁.trans hlen) hk
      refine ⟨m₂, ?_, hlen₂.trans hlen₁, ?_⟩
      · simp only [prepareUpTo, h₁, Option.bind_eq_bind, Option.bind_some]
        exact h₂
      · intro j hj
        rcases Nat.lt_succ_iff_lt_or_eq.mp hj with hlt | rfl
        · rw [hold j hlt]
          exact hmsg j hlt
        · exact hnew

/-- The loop prepares every message. -/
theorem prepare_prepared (ha : a.Sized) {m : Bytes} (hm : m.length = a.tableBytes.toNat) :
    ∃ T, a.prepare m = some T ∧ a.Prepared T := by
  have hlen := hm.trans (tableBytes_toNat ha.prod)
  obtain ⟨T, hT, hlenT, hmsg⟩ := prepareUpTo_spec ha hlen a.total (Nat.le_refl _)
  refine ⟨T, ?_, hlenT.trans hlen, hmsg⟩
  rw [prepare, ha.tableCount_toNat]
  exact hT

theorem prepared_of_prepare (ha : a.Sized) {m T : Bytes} (hm : m.length = a.tableBytes.toNat)
    (hT : a.prepare m = some T) : a.Prepared T := by
  obtain ⟨T', hT', hprep⟩ := prepare_prepared ha hm
  obtain rfl : T' = T := Option.some.inj (hT'.symm.trans hT)
  exact hprep

end NbSysArgs

end NetBench
