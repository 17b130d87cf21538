/-
# `NetBench.MsgLimit` — the parse loop on arbitrary headers

`8 + payload_len` is a `uint32_t` sum.  A header that announces `2^32` bytes or more
wraps around to a length below `8`: it passes the guard of every limit from `7` on, and
the loop consumes less than the header.  With `payload_len = 2^32 - 8` it consumes
nothing and goes on forever.

`NoWrap limit l` says that no such header passes the guard while the loop takes the
frames of `l` one after the other.  It is what the loop needs:

    the loop ends, each iteration consuming a header or more  ↔  NoWrap   (`parse_loop_ends_iff`)
    NoWrap  ⟹  no callback for more than `limit` bytes, none after a frame that is
               longer                                                     (`limit_of_run`)
-/
import NetBench.Wedge

namespace NetBench

open Lib

variable {β : Type} {B : BytesBuffer β} {contents : β → Bytes} {cap : Nat} {limit : UInt32}

/-! ## Headers that wrap around -/

/-- The guard rejects the message whose header is at the front of `l`. -/
def Rejects (limit : UInt32) (l : Bytes) : Prop :=
  tooLong limit (msgLen (MsgHdr.decode l)) = true

instance (limit : UInt32) (l : Bytes) : Decidable (Rejects limit l) :=
  inferInstanceAs (Decidable (_ = true))

/-- Taking frames that pass the guard, `fs`, off `l` leaves `t`. -/
structure ComesTo (limit : UInt32) (l : Bytes) (fs : List Bytes) (t : Bytes) : Prop
    extends nbFraming.Reaches l fs t where
  passed : ∀ f ∈ fs, ¬ Rejects limit f

/-- No header at which the loop arrives wraps around, unless the guard rejects it. -/
def NoWrap (limit : UInt32) (l : Bytes) : Prop :=
  ∀ fs t, ComesTo limit l fs t → 8 ≤ t.length → ¬ Rejects limit t → nbFraming.announced t < 2 ^ 32

theorem ComesTo.nil (l : Bytes) : ComesTo limit l [] l :=
  { Framing.Reaches.nil l with passed := fun _ h => nomatch h }

theorem ComesTo.trans {l t u : Bytes} {fs gs : List Bytes} (h : ComesTo limit l fs t)
    (h' : ComesTo limit t gs u) : ComesTo limit l (fs ++ gs) u := by
  refine { h.toReaches.trans h'.toReaches with passed := fun f hf => ?_ }
  rcases List.mem_append.mp hf with hf | hf
  · exact h.passed f hf
  · exact h'.passed f hf

theorem ComesTo.append_right {l t : Bytes} {fs : List Bytes} (h : ComesTo limit l fs t)
    (r : Bytes) : ComesTo limit (l ++ r) fs (t ++ r) :=
  { h.toReaches.append_right r with passed := h.passed }

/-- One frame that passes. -/
theorem comesTo_frame {l f t : Bytes} (hl : l = f ++ t) (hf : nbFraming.IsFrame f)
    (hp : ¬ Rejects limit f) : ComesTo limit l [f] t where
  eq := by simpa using hl
  frames := by simpa using hf
  passed := by simpa using hp

theorem NoWrap.rest {l t : Bytes} {fs : List Bytes} (h : NoWrap limit l)
    (ht : ComesTo limit l fs t) : NoWrap limit t :=
  fun gs u hu => h (fs ++ gs) u (ht.trans hu)

theorem rejects_append {l : Bytes} (h : 8 ≤ l.length) (r : Bytes) :
    Rejects limit (l ++ r) ↔ Rejects limit l := by
  rw [Rejects, Rejects, MsgHdr.decode_append h]

theorem NoWrap.of_isPrefix {l m : Bytes} (h : NoWrap limit m) (hp : l <+: m) : NoWrap limit l := by
  obtain ⟨r, rfl⟩ := hp
  intro fs t ht h8 hpass
  rw [← Framing.announced_append h8 r]
  refine h fs (t ++ r) (ht.append_right r) ?_ ?_
  · rw [List.length_append]
    omega
  · rw [rejects_append h8]
    exact hpass

/-- Headers that do not wrap at all. -/
theorem HeadersOk.noWrap {l : Bytes} (h : HeadersOk l) : NoWrap limit l :=
  fun fs t ht h8 _ => h fs t ht.toReaches h8

/-- A frame that passes is within the limit, if there is one. -/
theorem length_le_of_passes (hL : 0 < limit) {f : Bytes} (hf : nbFraming.IsFrame f)
    (hlt : f.length < 2 ^ 32) (hp : ¬ Rejects limit f) : f.length ≤ limit.toNat := by
  have h8 : 8 ≤ f.length := hf.hdrLen_le
  have hlen : (msgLen (MsgHdr.decode f)).toNat = f.length := by
    rw [msgLen_eq_announced h8 (by rw [hf]; exact hlt), hf]
  by_contra hgt
  refine hp (decide_eq_true ⟨hL, ?_⟩)
  rw [UInt32.lt_iff_toNat_lt, hlen]
  omega

/-- A header that announces more than the limit, without wrapping, is rejected. -/
theorem rejects_of_announced (hL : 0 < limit) {l : Bytes} (h8 : 8 ≤ l.length)
    (hlt : nbFraming.announced l < 2 ^ 32) (hgt : limit.toNat < nbFraming.announced l) :
    Rejects limit l := by
  refine decide_eq_true ⟨hL, ?_⟩
  rw [UInt32.lt_iff_toNat_lt, msgLen_eq_announced h8 hlt]
  exact hgt

/-! ## One iteration -/

/-- An iteration that makes the callback `m` and goes on. -/
def Delivers (B : BytesBuffer β) (limit : UInt32) (b : β) (m : Callback) (b' : β) : Prop :=
  parseIter B limit b = .deliver m b'

theorem Delivers.unique {b b₁ b₂ : β} {m₁ m₂ : Callback} (h₁ : Delivers B limit b m₁ b₁)
    (h₂ : Delivers B limit b m₂ b₂) : m₁ = m₂ ∧ b₁ = b₂ := by
  have h := h₁.symm.trans h₂
  injection h with hm hb
  exact ⟨hm, hb⟩

/-- A complete frame that passes is delivered; it is shorter than the buffer. -/
theorem delivers_frame (hB : B.Fifo contents cap) {b : β} {f t : Bytes}
    (hb : contents b = f ++ t) (hf : nbFraming.IsFrame f) (hp : ¬ Rejects limit f) :
    ∃ mem b', Delivers B limit b (.of mem) b' ∧ f <+: mem ∧ contents b' = t := by
  have h8 : 8 ≤ f.length := hf.hdrLen_le
  have hle : 8 ≤ (contents b).length ∧ f.length ≤ (contents b).length := by
    rw [hb, List.length_append]
    omega
  have hlt : f.length < 2 ^ 32 := by
    have h₁ := hB.length_le b
    have h₂ := hB.cap_lt
    omega
  have hdec : MsgHdr.decode (contents b) = MsgHdr.decode f := by rw [hb, MsgHdr.decode_append h8]
  have hlen : (msgLen (MsgHdr.decode f)).toNat = f.length := by
    rw [msgLen_eq_announced h8 (by rw [hf]; exact hlt), hf]
  rcases parseIter_cases hB limit b with ⟨hs, _⟩ | ⟨_, ht, _⟩ | ⟨_, _, hs, _⟩ |
    ⟨_, _, _, mem, b', hit, hpre, hcont⟩
  · exact absurd hle.1 (Nat.not_le_of_lt hs)
  · rw [hdec] at ht
    exact absurd ht hp
  · rw [hdec, hlen] at hs
    exact absurd hle.2 (Nat.not_le_of_lt hs)
  · rw [hdec, hlen, hb] at hpre hcont
    rw [List.take_left] at hpre
    rw [List.drop_left] at hcont
    exact ⟨mem, b', hit, hpre, hcont⟩

/-- An iteration at a header that does not wrap, or is rejected: it breaks on a frame
that is not complete, shuts the context down, or delivers a frame that passes. -/
theorem parseIter_of_noWrap (hB : B.Fifo contents cap) {b : β} (h : NoWrap limit (contents b)) :
    (nbFraming.Short (contents b) ∧ parseIter B limit b = .stop b false) ∨
    (8 ≤ (contents b).length ∧ Rejects limit (contents b) ∧ parseIter B limit b = .stop b true) ∨
    ∃ f mem b', contents b = f ++ contents b' ∧ nbFraming.IsFrame f ∧ ¬ Rejects limit f ∧
      f <+: mem ∧ Delivers B limit b (.of mem) b' := by
  have hann : 8 ≤ (contents b).length → ¬ Rejects limit (contents b) →
      (msgLen (MsgHdr.decode (contents b))).toNat = nbFraming.announced (contents b) :=
    fun h8 hp => msgLen_eq_announced h8 (h [] _ (ComesTo.nil _) h8 hp)
  rcases parseIter_cases hB limit b with ⟨h8, hit⟩ | ⟨h8, ht, hit⟩ | ⟨h8, hp, hn, hit⟩ |
    ⟨h8, hp, hn, mem, b', hit, hpre, hcont⟩
  · exact Or.inl ⟨Or.inl h8, hit⟩
  · exact Or.inr (Or.inl ⟨h8, ht, hit⟩)
  · have hp : ¬ Rejects limit (contents b) := by rw [Rejects, hp]; exact Bool.false_ne_true
    rw [hann h8 hp] at hn
    exact Or.inl ⟨Or.inr hn, hit⟩
  · have hp : ¬ Rejects limit (contents b) := by rw [Rejects, hp]; exact Bool.false_ne_true
    rw [hann h8 hp] at hn hpre hcont
    have hns : ¬ nbFraming.Short (contents b) := by
      rintro (hs | hs)
      · exact absurd h8 (Nat.not_le_of_lt hs)
      · exact absurd hn (Nat.not_le_of_lt hs)
    have hf := Framing.isFrame_take hns
    have h8f : 8 ≤ ((contents b).take (nbFraming.announced (contents b))).length := hf.hdrLen_le
    have hsplit := List.take_append_drop (nbFraming.announced (contents b)) (contents b)
    refine Or.inr (Or.inr ⟨_, mem, b', ?_, hf, ?_, hpre, hit⟩)
    · rw [hcont, hsplit]
    · rw [← rejects_append h8f, hsplit]
      exact hp

/-- An iteration at a header that wraps and passes consumes less than a header. -/
theorem parseIter_of_wrap (hB : B.Fifo contents cap) {b : β} (h8 : 8 ≤ (contents b).length)
    (hp : ¬ Rejects limit (contents b)) (hwrap : 2 ^ 32 ≤ nbFraming.announced (contents b)) :
    ∃ m b' n, Delivers B limit b m b' ∧ n < 8 ∧ n + 2 ^ 32 = nbFraming.announced (contents b) ∧
      contents b' = (contents b).drop n := by
  have hpay := (MsgHdr.decode (contents b)).payloadLen.toNat_lt
  have hann := announced_eq h8
  have hn := msgLen_toNat (MsgHdr.decode (contents b))
  rcases parseIter_cases hB limit b with ⟨hs, _⟩ | ⟨_, ht, _⟩ | ⟨_, _, hs, _⟩ |
    ⟨_, _, _, mem, b', hit, _, hcont⟩
  · exact absurd h8 (Nat.not_le_of_lt hs)
  · exact absurd ht hp
  · omega
  · exact ⟨_, b', _, hit, by omega, by omega, hcont⟩

/-! ## The loop -/

/-- A loop that returns has made the callbacks of some iterations, and stops in the
buffer that they left. -/
theorem parseLoop_run {σ : Type} (hB : B.Fifo contents cap) (cb : σ → Callback → σ) :
    ∀ (fuel : Nat) (b : β) (s : σ) {b' : β} {s' : σ} {shut : Bool},
      parseLoop B limit cb fuel b s = some (b', s', shut) →
      ∃ ms, Run (Delivers B limit) b ms b' ∧ s' = ms.foldl cb s ∧
        parseIter B limit b' = .stop b' shut
  | 0, _, _, _, _, _, h => nomatch h
  | fuel + 1, b, s, b', s', shut, h => by
      have hstop : ∀ {x : Bool}, parseIter B limit b = .stop b x → ∃ ms,
          Run (Delivers B limit) b ms b' ∧ s' = ms.foldl cb s ∧
            parseIter B limit b' = .stop b' shut := by
        intro x hit
        simp only [parseLoop, hit, Option.some.injEq, Prod.mk.injEq] at h
        obtain ⟨rfl, rfl, rfl⟩ := h
        exact ⟨[], .nil _, rfl, hit⟩
      rcases parseIter_cases hB limit b with ⟨_, hit⟩ | ⟨_, _, hit⟩ | ⟨_, _, _, hit⟩ |
        ⟨_, _, _, mem, b₁, hit, _⟩
      · exact hstop hit
      · exact hstop hit
      · exact hstop hit
      · simp only [parseLoop, hit] at h
        obtain ⟨ms, hrun, hs, hend⟩ := parseLoop_run hB cb fuel b₁ _ h
        exact ⟨.of mem :: ms, .cons hit hrun, hs, hend⟩

/-- With more fuel than unread bytes it returns, if no header wraps. -/
theorem parseLoop_returns {σ : Type} (hB : B.Fifo contents cap) (cb : σ → Callback → σ) :
    ∀ (fuel : Nat) (b : β) (s : σ), NoWrap limit (contents b) → (contents b).length < fuel →
      (parseLoop B limit cb fuel b s).isSome
  | 0, _, _, _, h => absurd h (Nat.not_lt_zero _)
  | fuel + 1, b, s, hok, hlt => by
      rcases parseIter_of_noWrap hB hok with ⟨_, hit⟩ | ⟨_, _, hit⟩ | ⟨f, mem, b', heq, hf, hp, _, hit⟩
      · simp [parseLoop, hit]
      · simp [parseLoop, hit]
      · have h8 : 8 ≤ f.length := hf.hdrLen_le
        have hlen : (contents b).length = f.length + (contents b').length := by
          rw [heq, List.length_append]
        have hrec := parseLoop_returns hB cb fuel b' (cb s (.of mem))
          (hok.rest (comesTo_frame heq hf hp)) (by omega)
        rw [Delivers] at hit
        simp only [parseLoop, hit]
        exact hrec

/-- The iterations take frames that pass, one each. -/
theorem comesTo_of_run (hB : B.Fifo contents cap) {b b' : β} {ms : List Callback}
    (hrun : Run (Delivers B limit) b ms b') (hok : NoWrap limit (contents b)) :
    ∃ fs, ComesTo limit (contents b) fs (contents b') ∧
      ms.map Callback.seen = fs.map Seen.ofFrame := by
  induction hrun with
  | nil => exact ⟨[], ComesTo.nil _, rfl⟩
  | cons hs _ ih =>
      rcases parseIter_of_noWrap hB hok with ⟨_, hit⟩ | ⟨_, _, hit⟩ |
        ⟨f, mem, b₁, heq, hf, hp, hpre, hit⟩
      · exact nomatch hs.symm.trans hit
      · exact nomatch hs.symm.trans hit
      · obtain ⟨rfl, rfl⟩ := hs.unique hit
        have hcut := comesTo_frame heq hf hp
        obtain ⟨fs, hfs, hseen⟩ := ih (hok.rest hcut)
        refine ⟨f :: fs, hcut.trans hfs, ?_⟩
        rw [List.map_cons, List.map_cons, hseen, Callback.seen_of hf hpre]

/-- The loop gets to every place to which frames that pass lead, with a callback for each. -/
theorem run_of_comesTo (hB : B.Fifo contents cap) {fs : List Bytes} {t : Bytes} : ∀ {b : β},
    ComesTo limit (contents b) fs t → ∃ ms b', Run (Delivers B limit) b ms b' ∧
      contents b' = t ∧ ms.map Callback.seen = fs.map Seen.ofFrame := by
  induction fs with
  | nil =>
      intro b h
      exact ⟨[], b, .nil b, by simpa using h.eq, rfl⟩
  | cons f fs ih =>
      intro b h
      have hf := h.frames f List.mem_cons_self
      have hb : contents b = f ++ (fs.flatten ++ t) := by simpa using h.eq
      obtain ⟨mem, b₁, hit, hpre, hcont⟩ := delivers_frame hB hb hf (h.passed f List.mem_cons_self)
      have hrest : ComesTo limit (contents b₁) fs t :=
        { eq := hcont
          frames := fun g hg => h.frames g (List.mem_cons_of_mem _ hg)
          passed := fun g hg => h.passed g (List.mem_cons_of_mem _ hg) }
      obtain ⟨ms, b', hrun, ht, hseen⟩ := ih hrest
      refine ⟨_, b', .cons hit hrun, ht, ?_⟩
      rw [List.map_cons, List.map_cons, hseen, Callback.seen_of hf hpre]

/-! ## When the loop ends -/

/-- Every iteration consumes a header or more, the loop returns, and it makes at most
one callback for eight unread bytes. -/
structure ParseEnds (B : BytesBuffer β) (contents : β → Bytes) (limit : UInt32) (b : β) : Prop where
  consumes : ∀ {ms b₁ m b₂}, Run (Delivers B limit) b ms b₁ → Delivers B limit b₁ m b₂ →
    (contents b₂).length + sizeofMsgHdr ≤ (contents b₁).length
  returns : ∀ {σ : Type} (cb : σ → Callback → σ) (s : σ),
    ∃ fuel, (parseLoop B limit cb fuel b s).isSome
  calls : ∀ {fuel b' calls shut},
    parseLoop B limit (fun calls m => calls ++ [m]) fuel b [] = some (b', calls, shut) →
    calls.length ≤ (contents b).length / sizeofMsgHdr

/-- Frames are no shorter than headers. -/
theorem eight_mul_le_flatten {fs : List Bytes} (h : ∀ f ∈ fs, nbFraming.IsFrame f) :
    8 * fs.length ≤ fs.flatten.length := by
  induction fs with
  | nil => exact Nat.le_refl _
  | cons f fs ih =>
      have h8 : 8 ≤ f.length := (h f List.mem_cons_self).hdrLen_le
      have := ih fun g hg => h g (List.mem_cons_of_mem _ hg)
      rw [List.flatten_cons, List.length_append, List.length_cons]
      omega

/-- The loop ends as it should exactly if no header wraps around, whatever is in the
buffer and whatever the limit. -/
theorem parse_loop_ends_iff (hB : B.Fifo contents cap) (limit : UInt32) (b : β) :
    ParseEnds B contents limit b ↔ NoWrap limit (contents b) := by
  constructor
  · intro h fs t ht h8 hp
    by_contra hwrap
    obtain ⟨ms, b₁, hrun, rfl, _⟩ := run_of_comesTo hB ht
    obtain ⟨m, b₂, n, hit, hn, _, hcont⟩ := parseIter_of_wrap hB h8 hp (Nat.le_of_not_lt hwrap)
    have hle := h.consumes hrun hit
    rw [hcont, List.length_drop] at hle
    have : sizeofMsgHdr = 8 := rfl
    omega
  · intro hok
    refine ⟨?_, fun cb s => ⟨_, parseLoop_returns hB cb _ b s hok (Nat.lt_succ_self _)⟩, ?_⟩
    · intro ms b₁ m b₂ hrun hit
      obtain ⟨fs, hfs, _⟩ := comesTo_of_run hB hrun hok
      rcases parseIter_of_noWrap hB (hok.rest hfs) with ⟨_, hstop⟩ | ⟨_, _, hstop⟩ |
        ⟨f, mem, b', heq, hf, _, _, hit'⟩
      · exact nomatch hit.symm.trans hstop
      · exact nomatch hit.symm.trans hstop
      · obtain ⟨_, rfl⟩ := hit.unique hit'
        have h8 : 8 ≤ f.length := hf.hdrLen_le
        rw [heq, List.length_append]
        show _ + 8 ≤ _
        omega
    · intro fuel b' calls shut hp
      obtain ⟨ms, hrun, rfl, _⟩ := parseLoop_run hB _ fuel b [] hp
      obtain ⟨fs, hfs, hseen⟩ := comesTo_of_run hB hrun hok
      have hlen : ms.length = fs.length := by simpa using congrArg List.length hseen
      have hle := eight_mul_le_flatten hfs.frames
      rw [foldl_snoc, List.nil_append, hlen, hfs.eq, List.length_append]
      show _ ≤ _ / 8
      omega

/-- What one read can store in an empty ring. -/
theorem exists_ring_contents (data : Bytes) (h : data.length ≤ netBenchTcpRecvUnitSize) :
    ∃ R : Ring UInt8 netBenchTcpBufSize, R.contents = data := by
  obtain ⟨m, _, hcont⟩ := Ring.contents_store
    (R := emptyRing netBenchTcpBufSize fun _ => 0) (p := 0) rfl h
  exact ⟨_, hcont⟩

/-- At a header that wraps around to `0` the loop goes on forever. -/
theorem parseLoop_stuck {σ : Type} (hB : B.Fifo contents cap) (cb : σ → Callback → σ)
    (fuel : Nat) : ∀ (b : β) (s : σ), 8 ≤ (contents b).length → ¬ Rejects limit (contents b) →
      nbFraming.announced (contents b) = 2 ^ 32 → parseLoop B limit cb fuel b s = none := by
  induction fuel with
  | zero =>
      intro b s _ _ _
      rfl
  | succ fuel ih =>
      intro b s h8 hp hann
      obtain ⟨m, b', n, hit, _, hn, hcont⟩ := parseIter_of_wrap hB h8 hp (Nat.le_of_eq hann.symm)
      -- nothing was consumed
      obtain rfl : n = 0 := by omega
      rw [List.drop_zero] at hcont
      rw [Delivers] at hit
      simp only [parseLoop, hit]
      exact ih b' _ (hcont ▸ h8) (hcont ▸ hp) (hcont ▸ hann)

/-- The header of a message of `2^32` bytes. -/
def hangingHeader : Bytes := (MsgHdr.mk 1 4294967288).encode

/-- With it in the ring, the loop does not return. -/
theorem parse_loop_hangs : ∃ R : Ring UInt8 netBenchTcpBufSize, R.contents = hangingHeader ∧
    ∀ fuel, parseLoop sessionRing 0 (fun calls m => calls ++ [m]) fuel R ([] : List Callback) =
      none := by
  obtain ⟨R, hR⟩ := exists_ring_contents hangingHeader (by decide)
  refine ⟨R, hR, fun fuel => parseLoop_stuck sessionRing_fifo _ fuel R [] ?_ ?_ ?_⟩
  · rw [hR]
    decide
  · rw [Rejects, tooLong_zero]
    exact Bool.false_ne_true
  · rw [hR]
    decide

/-- With a message and the header of the next one, it ends. -/
theorem parse_loop_ends_on_message : ∃ R : Ring UInt8 netBenchTcpBufSize,
    R.contents = messageAndHeader ∧ ParseEnds sessionRing Ring.contents 0 R := by
  obtain ⟨R, hR⟩ := exists_ring_contents messageAndHeader (by decide)
  refine ⟨R, hR, (parse_loop_ends_iff sessionRing_fifo 0 R).mpr ?_⟩
  rw [hR]
  exact HeadersOk.noWrap (by decide)

/-! ## The limit over a whole run -/

/-- A new session on the buffer `b`, with a limit. -/
def Feed.limited (b : β) (limit : UInt32) : Feed β :=
  ⟨{ nbTcpSessionNew b with msgLenLimit := limit }, [], [], false⟩

/-- The callbacks made are for frames that pass, which were cut off the bytes read. -/
structure Feed.Guarded (contents : β → Bytes) (limit : UInt32) (f : Feed β) (fs : List Bytes) :
    Prop where
  comes : ComesTo limit f.got fs (contents f.session.bytesBuf)
  calls : f.calls.map Callback.seen = fs.map Seen.ofFrame
  limit_eq : f.session.msgLenLimit = limit

/-- An invocation that returns: what it read, the iterations of its parse loop, and the
buffer in which the loop stopped. -/
theorem Invoke.iterations (hB : B.Fifo contents cap) {f f' : Feed β} {cks : List Chunk}
    (h : Invoke B f cks f') :
    contents (readLoop B f.session.bytesBuf cks).buf =
        contents f.session.bytesBuf ++ (readLoop B f.session.bytesBuf cks).got ∧
    f'.got = f.got ++ (readLoop B f.session.bytesBuf cks).got ∧
    f'.session.msgLenLimit = f.session.msgLenLimit ∧
    ∃ ms shut, Run (Delivers B f.session.msgLenLimit) (readLoop B f.session.bytesBuf cks).buf ms
        f'.session.bytesBuf ∧
      f'.calls = f.calls ++ ms ∧ f'.shut = (f.shut || shut) ∧
      parseIter B f.session.msgLenLimit f'.session.bytesBuf = .stop f'.session.bytesBuf shut := by
  obtain ⟨fuel, r, hr, rfl⟩ := h
  obtain ⟨hcont, -, hstop⟩ := readLoop_spec hB cks f.session.bytesBuf
  rw [nbTcpSessionOnMsg_eq B hstop, Option.map_eq_some_iff] at hr
  obtain ⟨⟨b', s', shut⟩, hp, rfl⟩ := hr
  obtain ⟨ms, hrun, hs, hend⟩ := parseLoop_run hB _ fuel _ _ hp
  refine ⟨hcont, rfl, rfl, ms, shut, hrun, ?_, rfl, hend⟩
  rw [← foldl_snoc]
  exact hs

/-- An invocation takes further frames that pass off the bytes it has read. -/
theorem Feed.Guarded.invoke (hB : B.Fifo contents cap) {f f' : Feed β} {cks : List Chunk}
    {fs : List Bytes} (hd : f.Guarded contents limit fs) (h : Invoke B f cks f')
    (hok : NoWrap limit f'.got) :
    ComesTo limit f'.got fs (contents (readLoop B f.session.bytesBuf cks).buf) ∧
    ∃ gs, f'.Guarded contents limit gs := by
  obtain ⟨hcont, hgot, hlim, ms, shut, hrun, hcalls, _⟩ := h.iterations hB
  rw [hd.limit_eq] at hlim hrun
  have hcomes : ComesTo limit f'.got fs (contents (readLoop B f.session.bytesBuf cks).buf) := by
    rw [hgot, hcont]
    exact hd.comes.append_right _
  obtain ⟨gs, hgs, hseen⟩ := comesTo_of_run hB hrun (hok.rest hcomes)
  refine ⟨hcomes, fs ++ gs, hcomes.trans hgs, ?_, hlim⟩
  rw [hcalls, List.map_append, List.map_append, hd.calls, hseen]

theorem guarded_of_run (hB : B.Fifo contents cap) {invs : List (List Chunk)} {f f' : Feed β}
    (hrun : Run (Invoke B) f invs f') : NoWrap limit f'.got →
      ∀ fs, f.Guarded contents limit fs → ∃ gs, f'.Guarded contents limit gs := by
  induction hrun with
  | nil =>
      intro _ fs hd
      exact ⟨fs, hd⟩
  | cons hs hr ih =>
      intro hok fs hd
      have hmono := hr.relate (I := fun _ => True) (R := fun f f' => f.got <+: f'.got)
        (fun _ => List.prefix_rfl) (fun _ _ _ => List.IsPrefix.trans) (fun _ _ _ _ _ => trivial)
        (fun _ _ _ _ => Invoke.got_mono) trivial
      obtain ⟨_, gs, hgs⟩ := hd.invoke hB hs (hok.of_isPrefix hmono)
      exact ih hok gs hgs

theorem guarded_limited {b : β} (h : contents b = []) :
    (Feed.limited b limit).Guarded contents limit [] where
  comes := by
    show ComesTo limit [] [] (contents b)
    rw [h]
    exact ComesTo.nil []
  calls := rfl
  limit_eq := rfl

/-- An invocation returns. -/
theorem invoke_returns (hB : B.Fifo contents cap) {f : Feed β} {cks : List Chunk}
    {fs : List Bytes} (hd : f.Guarded contents limit fs)
    (hok : NoWrap limit (f.got ++ chunkBytes cks)) : ∃ f', Invoke B f cks f' := by
  obtain ⟨hcont, hgot, hstop⟩ := readLoop_spec hB cks f.session.bytesBuf
  have hread : NoWrap limit (f.got ++ (readLoop B f.session.bytesBuf cks).got) :=
    hok.of_isPrefix ((List.prefix_append_right_inj _).mpr hgot)
  have hbuf : NoWrap limit (contents (readLoop B f.session.bytesBuf cks).buf) := by
    rw [hcont]
    exact hread.rest (hd.comes.append_right _)
  have hret := parseLoop_returns hB (fun (calls : List Callback) m => calls ++ [m]) _ _ f.calls hbuf
    (Nat.lt_succ_self _)
  obtain ⟨p, hp⟩ := Option.isSome_iff_exists.mp hret
  have hr : ∃ r, nbTcpSessionOnMsg B (fun calls m => calls ++ [m])
      ((contents (readLoop B f.session.bytesBuf cks).buf).length + 1) f.session cks f.calls
        = some r := by
    rw [nbTcpSessionOnMsg_eq B hstop, hd.limit_eq, hp]
    exact ⟨_, rfl⟩
  obtain ⟨r, hr⟩ := hr
  exact ⟨_, _, r, hr, rfl⟩

/-! ### After a frame that is too long -/

theorem parseIter_of_rejects (hB : B.Fifo contents cap) {b : β} (h8 : 8 ≤ (contents b).length)
    (hr : Rejects limit (contents b)) : parseIter B limit b = .stop b true := by
  rcases parseIter_cases hB limit b with ⟨hs, _⟩ | ⟨_, _, hit⟩ | ⟨_, hf, _, _⟩ | ⟨_, hf, _⟩
  · exact absurd h8 (Nat.not_le_of_lt hs)
  · exact hit
  · exact absurd (hr.symm.trans hf) (by decide)
  · exact absurd (hr.symm.trans hf) (by decide)

/-- The head of the buffer is a frame that the guard rejects. -/
structure Feed.Stuck (contents : β → Bytes) (f : Feed β) : Prop where
  ge : 8 ≤ (contents f.session.bytesBuf).length
  rejects : Rejects f.session.msgLenLimit (contents f.session.bytesBuf)

/-- It stays there, and no callback is made. -/
theorem Feed.Stuck.invoke (hB : B.Fifo contents cap) {f f' : Feed β} {cks : List Chunk}
    (hf : f.Stuck contents) (h : Invoke B f cks f') : f'.Stuck contents ∧ f'.calls = f.calls := by
  obtain ⟨hcont, _, hlim, ms, shut, hrun, hcalls, _⟩ := h.iterations hB
  have h8 : 8 ≤ (contents (readLoop B f.session.bytesBuf cks).buf).length := by
    rw [hcont, List.length_append]
    have := hf.ge
    omega
  have hr : Rejects f.session.msgLenLimit (contents (readLoop B f.session.bytesBuf cks).buf) := by
    rw [hcont, rejects_append hf.ge]
    exact hf.rejects
  have hit := parseIter_of_rejects hB h8 hr
  generalize (readLoop B f.session.bytesBuf cks).buf = b at hrun h8 hr hit
  cases hrun with
  | nil => exact ⟨⟨h8, hlim ▸ hr⟩, by rw [hcalls, List.append_nil]⟩
  | cons hs _ => exact nomatch hs.symm.trans hit

theorem Feed.Stuck.run (hB : B.Fifo contents cap) {f f' : Feed β} {invs : List (List Chunk)}
    (hrun : Run (Invoke B) f invs f') : f.Stuck contents → f'.calls = f.calls := by
  induction hrun with
  | nil =>
      intro _
      rfl
  | cons hs _ ih =>
      intro hf
      obtain ⟨hf', hcalls⟩ := hf.invoke hB hs
      exact (ih hf').trans hcalls

/-! ### The limit -/

/-- The iteration from `b` to `b'` consumes `x`: bytes of the stream `got`, no more than
the limit, a header and the payload that the callback `m` is given. -/
structure TakesWithin (contents : β → Bytes) (limit : UInt32) (got : Bytes) (b : β)
    (m : Callback) (b' : β) (x : Bytes) : Prop where
  consumed : contents b = x ++ contents b'
  stream : contents b <:+ got
  length_eq : x.length = sizeofMsgHdr + m.datalen.toNat
  le : sizeofMsgHdr + m.datalen.toNat ≤ limit.toNat
  payload : m.data.take m.datalen.toNat = x.drop sizeofMsgHdr

/-- An iteration at a place to which the loop comes stays within the limit. -/
theorem takesWithin_of_delivers (hB : B.Fifo contents cap) (hL : 0 < limit) {got : Bytes}
    {fs : List Bytes} {b b' : β} {m : Callback} (hok : NoWrap limit got)
    (hcomes : ComesTo limit got fs (contents b)) (h : Delivers B limit b m b') :
    ∃ x, TakesWithin contents limit got b m b' x := by
  rcases parseIter_of_noWrap hB (hok.rest hcomes) with ⟨_, hit⟩ | ⟨_, _, hit⟩ |
    ⟨x, mem, b₁, heq, hx, hp, hpre, hit⟩
  · exact nomatch h.symm.trans hit
  · exact nomatch h.symm.trans hit
  · obtain ⟨rfl, rfl⟩ := h.unique hit
    have hlt : x.length < 2 ^ 32 := by
      have h₁ := hB.length_le b
      have h₂ := hB.cap_lt
      rw [heq, List.length_append] at h₁
      omega
    have hseen := Callback.seen_of hx hpre
    have hdata : (Callback.of mem).datalen = (MsgHdr.decode x).payloadLen :=
      congrArg Seen.datalen hseen
    have hlen : x.length = sizeofMsgHdr + (Callback.of mem).datalen.toNat := by
      rw [hdata]
      exact (isFrame_iff.mp hx).2
    exact ⟨x, heq, ⟨fs.flatten, hcomes.eq.symm⟩, hlen,
      hlen ▸ length_le_of_passes hL hx hlt hp, congrArg Seen.payload hseen⟩

/-- A session with the limit `L > 0` in any run whose bytes hold no header that wraps and
passes.  In any invocation, from `f₁` to `f₂`: its callbacks are those of its iterations;
each iteration takes a frame of at most `L` bytes off the stream and hands its payload
over; and if an iteration meets a frame that is longer, the context is shut down, and
neither this nor a later invocation makes another callback. -/
theorem limit_of_run (hB : B.Fifo contents cap) (hL : 0 < limit) {b₀ : β} (h₀ : contents b₀ = [])
    {invs later : List (List Chunk)} {f₁ f₂ f₃ : Feed β} {cks : List Chunk}
    (hrun : Run (Invoke B) (Feed.limited b₀ limit) invs f₁) (hinv : Invoke B f₁ cks f₂)
    (hlater : Run (Invoke B) f₂ later f₃) (hok : NoWrap limit f₂.got) :
    (∃ ms, Run (Delivers B limit) (readLoop B f₁.session.bytesBuf cks).buf ms f₂.session.bytesBuf ∧
      f₂.calls = f₁.calls ++ ms) ∧
    ∀ ms b, Run (Delivers B limit) (readLoop B f₁.session.bytesBuf cks).buf ms b →
      (∀ m b', Delivers B limit b m b' → ∃ x, TakesWithin contents limit f₂.got b m b' x) ∧
      (8 ≤ (contents b).length → limit.toNat < nbFraming.announced (contents b) →
        f₂.shut = true ∧ f₂.calls = f₁.calls ++ ms ∧ f₃.calls = f₂.calls) := by
  obtain ⟨fs, hd⟩ := guarded_of_run hB hrun (hok.of_isPrefix hinv.got_mono) [] (guarded_limited h₀)
  obtain ⟨hcomes, _⟩ := hd.invoke hB hinv hok
  obtain ⟨_, _, hlim, ms', shut, hloop, hcalls, hshut, hend⟩ := hinv.iterations hB
  rw [hd.limit_eq] at hlim hloop hend
  refine ⟨⟨ms', hloop, hcalls⟩, fun ms b hb => ?_⟩
  obtain ⟨gs, hgs, _⟩ := comesTo_of_run hB hb (hok.rest hcomes)
  have hcomes' := hcomes.trans hgs
  refine ⟨fun m b' hit => takesWithin_of_delivers hB hL hok hcomes' hit, fun h8 hgt => ?_⟩
  -- the loop stops at `b`, the place where it ended
  have hr : Rejects limit (contents b) := by
    by_contra hp
    exact hp (rejects_of_announced hL h8 (hok _ _ hcomes' h8 hp) hgt)
  have hstop := parseIter_of_rejects hB h8 hr
  have hdet : ∀ b m b' m' b'', Delivers B limit b m b' → Delivers B limit b m' b'' →
      m = m' ∧ b' = b'' := fun _ _ _ _ _ => Delivers.unique
  obtain ⟨rfl, rfl⟩ : ms = ms' ∧ b = f₂.session.bytesBuf :=
    hb.eq_of_stuck hdet hloop (fun _ _ h => nomatch h.symm.trans hstop)
      (fun _ _ h => nomatch h.symm.trans hend)
  have htrue : shut = true := by
    injection hend.symm.trans hstop
  refine ⟨by rw [hshut, htrue, Bool.or_true], hcalls, ?_⟩
  exact Feed.Stuck.run hB hlater ⟨h8, hlim.symm ▸ hr⟩

/-- The header of a message of `2^32 + 7` bytes. -/
def wrappingHeader : Bytes := (MsgHdr.mk 1 4294967295).encode

/-- It passes a limit of `16`: the callback is made, and the context stays open. -/
theorem limit_bypassed : ∃ f, Run (Invoke sessionRing)
      (Feed.limited (emptyRing netBenchTcpBufSize fun _ => 0) 16)
      [[⟨wrappingHeader, by decide, by decide⟩]] f ∧
    f.shut = false ∧ ∃ m ∈ f.calls, 16 < sizeofMsgHdr + m.datalen.toNat :=
  ⟨_, .cons ⟨2, _, rfl, rfl⟩ (.nil _), rfl, _, List.mem_cons_self, by decide⟩

/-- A message of 16 bytes. -/
def clientBytes : Bytes := (MsgHdr.mk 1 8).encode ++ (MsgData.mk 7 0).encode

/-- It, and the header of one of 24 bytes. -/
def messageAndLong : Bytes := clientBytes ++ (MsgHdr.mk 1 16).encode

/-- Both in one read, and another message. -/
def firstRead : Chunk := ⟨messageAndLong, by decide, by decide⟩

def secondRead : Chunk := ⟨clientBytes, by decide, by decide⟩

/-- With a limit of `16` the first is handed over, the second shuts the context down, and
what arrives later is not handed over. -/
theorem limit_after_message : ∃ f₂ f₃ : Feed (Ring UInt8 netBenchTcpBufSize),
    Invoke sessionRing (Feed.limited (emptyRing netBenchTcpBufSize fun _ => 0) 16)
      [firstRead] f₂ ∧
    Invoke sessionRing f₂ [secondRead] f₃ ∧
    f₂.calls.map Callback.seen = [⟨⟨1, 8⟩, (MsgData.mk 7 0).encode, 8⟩] ∧
    f₂.shut = true ∧ f₃.calls = f₂.calls := by
  have hd : (Feed.limited (emptyRing netBenchTcpBufSize fun _ => 0) 16).Guarded Ring.contents 16 [] :=
    guarded_limited (contents_emptyRing _ _)
  obtain ⟨f₂, h₂⟩ : ∃ f₂, Invoke sessionRing
      (Feed.limited (emptyRing netBenchTcpBufSize fun _ => 0) 16)
      [firstRead] f₂ :=
    invoke_returns sessionRing_fifo hd
      (show NoWrap 16 messageAndLong from HeadersOk.noWrap (by decide))
  have hgot : f₂.got = messageAndLong := (h₂.iterations sessionRing_fifo).2.1
  obtain ⟨hcomes, gs, hd₂⟩ := hd.invoke sessionRing_fifo h₂ (hgot ▸ HeadersOk.noWrap (by decide))
  obtain ⟨f₃, h₃⟩ : ∃ f₃, Invoke sessionRing f₂ [secondRead] f₃ :=
    invoke_returns sessionRing_fifo hd₂ (by
      rw [hgot]
      show NoWrap 16 (messageAndLong ++ clientBytes)
      exact HeadersOk.noWrap (by decide))
  obtain ⟨-, hloop⟩ := limit_of_run sessionRing_fifo (show (0 : UInt32) < 16 by decide)
    (contents_emptyRing _ _) (.nil _) h₂ (.single h₃) (hgot ▸ HeadersOk.noWrap (by decide))
  -- where the loop comes to the header of the second message
  have hfirst : ComesTo 16 messageAndLong [clientBytes] (MsgHdr.mk 1 16).encode :=
    comesTo_frame rfl (by decide) (by decide)
  have hbuf : messageAndLong = (readLoop sessionRing (emptyRing netBenchTcpBufSize fun _ => 0)
      [firstRead]).buf.contents := by
    have heq := hcomes.eq
    rw [List.flatten_nil, List.nil_append, hgot] at heq
    exact heq
  rw [hbuf] at hfirst
  obtain ⟨ms, b, hrun, hb, hseen⟩ := run_of_comesTo sessionRing_fifo hfirst
  obtain ⟨hshut, hcalls, hsame⟩ := (hloop ms b hrun).2 (by rw [hb]; decide) (by rw [hb]; decide)
  refine ⟨f₂, f₃, h₂, h₃, ?_, hshut, hsame⟩
  rw [hcalls]
  exact hseen

end NetBench
