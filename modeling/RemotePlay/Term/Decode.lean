import RemotePlay.Term.Stream
import Mathlib.Algebra.Order.BigOperators.Group.List

/-! # Reading a frame back from its term packets

`decodeTerms` reads the header words off the front of the first packet, joins the packets' bytes and
cuts them up by the thread words.  What it returns is the frame that was sent with every row count
taken modulo 32 (`decode_send`): the field `RP_KCP_HDR_RC_NBITS` has five bits, while `init_work`
gives a thread up to 100 rows.  The frame is read back exactly when the row counts fit
(`termOk_iff_rowsFit`). -/

namespace RemotePlay.Term

open RemotePlay.Lib.Words RemotePlay.Work

/-- What the receiver learns from the term packets of a frame. -/
structure TermFrame where
  downsample : ℕ
  delta_prog : Bool
  chroma_ss : ℕ
  screen : ℕ
  core_count : ℕ
  quality : ℕ
  even_odd : Bool
  full_width : Bool
  both_eyes : Bool
  audio_v2 : Bool
  rows : List ℕ
  tails : List (List UInt8)
  deriving DecidableEq

/-- The receiver once it has the two header words, the second being 0 when it is not there. -/
def decodeBody (hdr hdr_ex : ℕ) (packets : List (List UInt8)) : Option TermFrame := do
  let audio_v2 := hdr_ex / 2 ^ EXHDR_V2_BIT % 2 = 1
  let core_count := hdr / 2 ^ 7 % 4
  let hdr_size := if hdr / 2 ^ EX_HDR_BIT % 2 = 1 then 4 else 2
  let (words, body) ← readN core_count ((unTerms audio_v2 packets).drop hdr_size)
  let tails ← splitAts (words.map (· % 2 ^ RP_KCP_HDR_SIZE_NBITS)) body
  some
    { downsample := hdr / 2 ^ 13 % 4
      delta_prog := hdr / 2 ^ 12 % 2 = 1
      chroma_ss := hdr / 2 ^ 10 % 4
      screen := hdr / 2 ^ 9 % 2
      core_count := core_count
      quality := hdr % 2 ^ RP_KCP_HDR_QUALITY_NBITS
      even_odd := hdr_ex % 2 = 1
      full_width := hdr_ex / 2 % 2 = 1
      both_eyes := hdr_ex / 4 % 2 = 1
      audio_v2 := audio_v2
      rows := words.map (· / 2 ^ RP_KCP_HDR_SIZE_NBITS)
      tails := tails }

/-- The second header word, if the first announces one. -/
def readExHdr (hdr : ℕ) (rest : List UInt8) : Option (ℕ × List UInt8) :=
  if hdr / 2 ^ EX_HDR_BIT % 2 = 1 then read16 rest else some (0, rest)

/-- The receiver, on the data of the term packets of a frame in order. -/
def decodeTerms (packets : List (List UInt8)) : Option TermFrame := do
  let (hdr, rest) ← read16 (← packets.head?)
  let (hdr_ex, _) ← readExHdr hdr rest
  decodeBody hdr hdr_ex packets

/-- A frame whose threads have all left their tails. -/
structure Frame where
  w : Fin 2
  cfg : Settings
  info : TermInfo
  both_eyes : Bool
  ret : EncodeRet
  tail : ℕ → Tail

namespace Frame

variable (f : Frame)

/-- `send_term_dsts` for the frame. -/
def send (alloc : ℕ → Bool) : Option (List TermPacket) :=
  sendTermDsts alloc f.w f.cfg f.info f.both_eyes f.ret fun i => some (f.tail i)

/-- The threads of the frame. -/
def threads : List ℕ := List.range f.info.core_count.get

/-- The tails of the threads. -/
def tails : List (List UInt8) := f.threads.map fun i => (f.tail i).1

/-- The rows of the threads. -/
def rows : List ℕ := f.threads.map (rowsOf f.info)

/-- What the receiver ought to learn, with the given row counts. -/
def contents (rows : List ℕ) : TermFrame where
  downsample := f.cfg.downsample.val
  delta_prog := (deltaProgQuality f.cfg f.ret).1
  chroma_ss := f.cfg.chroma_ss.val
  screen := isTopIndex f.info.is_top
  core_count := f.info.core_count.get
  quality := (deltaProgQuality f.cfg f.ret).2
  even_odd := needEvenOdd f.cfg && f.info.even_odd
  full_width := fullWidth f.cfg f.info
  both_eyes := fullWidth f.cfg f.info && f.both_eyes
  audio_v2 := f.cfg.audio_kcp
  rows := rows
  tails := f.tails

/-- Every row count fits the field it is sent in. -/
def RowsFit : Prop := ∀ v ∈ f.rows, v < 2 ^ RP_KCP_HDR_RC_NBITS

/-- **What the term packets are for**: they exist, there are at most `RP_CORE_COUNT_MAX + 1` of
them, and they determine the header fields and each thread's tail and row count. -/
def TermOk : Prop :=
  ∃ ps, f.send (fun _ => true) = some ps ∧ ps.length ≤ RP_CORE_COUNT_MAX + 1 ∧
    decodeTerms (ps.map TermPacket.data) = some (f.contents f.rows)

instance : Decidable f.RowsFit := by unfold RowsFit; infer_instance

/-! ### The header words -/

theorem quality_lt : (deltaProgQuality f.cfg f.ret).2 < 2 ^ 7 := by
  rcases f.ret with color_bias | quality | delta_q
  · unfold deltaProgQuality
    cases color_bias <;> cases f.cfg.delta_prog <;> simp [ColorBias.val, RP_KCP_HDR_QUALITY_NBITS]
  · exact lt_of_lt_of_le quality.isLt (by decide)
  · exact lt_of_lt_of_le delta_q.isLt (by decide)

theorem or_fields {d p c s n q : ℕ} (hp : p < 2) (hc : c < 4) (hs : s < 2) (hn : n < 4)
    (hq : q < 2 ^ 7) :
    d <<< 13 ||| p <<< 12 ||| c <<< 10 ||| s <<< 9 ||| n <<< 7 ||| q =
      d * 2 ^ 13 + p * 2 ^ 12 + c * 2 ^ 10 + s * 2 ^ 9 + n * 2 ^ 7 + q := by
  simp only [Nat.or_assoc]
  rw [or_shift 7 _ hq, or_shift 9 _ (by omega), or_shift 10 _ (by omega), or_shift 12 _ (by omega),
    or_shift 13 _ (by omega)]
  omega

theorem fields_lt : f.cfg.downsample.val < 4 ∧ (deltaProgQuality f.cfg f.ret).1.toNat < 2 ∧
    f.cfg.chroma_ss.val < 4 ∧ isTopIndex f.info.is_top < 2 ∧ f.info.core_count.get < 4 := by
  refine ⟨?_, Bool.toNat_lt _, ?_, ?_, Nat.lt_succ_of_le f.info.core_count.get_le⟩
  · cases f.cfg.downsample <;> decide
  · cases f.cfg.chroma_ss <;> decide
  · cases f.info.is_top <;> decide

theorem frameHdr_eq : frameHdr f.cfg f.info f.ret =
    (exHdr f.cfg f.info).toNat * 2 ^ 15 + (f.cfg.downsample.val * 2 ^ 13 +
      (deltaProgQuality f.cfg f.ret).1.toNat * 2 ^ 12 + f.cfg.chroma_ss.val * 2 ^ 10 +
      isTopIndex f.info.is_top * 2 ^ 9 + f.info.core_count.get * 2 ^ 7 +
      (deltaProgQuality f.cfg f.ret).2) := by
  obtain ⟨hd, hp, hc, hs, hn⟩ := f.fields_lt
  have hq := f.quality_lt
  have hsum := or_fields (d := f.cfg.downsample.val) hp hc hs hn hq
  unfold frameHdr
  simp only [RP_KCP_HDR_QUALITY_NBITS, RP_KCP_HDR_T_NBITS, RP_KCP_HDR_CHROMASS_NBITS, EX_HDR_BIT,
    Nat.reduceAdd, hsum]
  cases exHdr f.cfg f.info
  · simp
  · rw [if_pos rfl, or_shift' 15 _ (by omega)]
    rfl

theorem frameHdr_lt : frameHdr f.cfg f.info f.ret < 65536 := by
  obtain ⟨hd, hp, hc, hs, hn⟩ := f.fields_lt
  have hq := f.quality_lt
  have hx := Bool.toNat_lt (exHdr f.cfg f.info)
  rw [frameHdr_eq]
  omega

theorem frameExHdr_eq : frameExHdr f.cfg f.info f.both_eyes =
    f.cfg.audio_kcp.toNat * 2 ^ 14 + (fullWidth f.cfg f.info && f.both_eyes).toNat * 4 +
      (fullWidth f.cfg f.info).toNat * 2 + (needEvenOdd f.cfg && f.info.even_odd).toNat := by
  unfold frameExHdr
  cases needEvenOdd f.cfg <;> cases f.info.even_odd <;> cases fullWidth f.cfg f.info <;>
    cases f.both_eyes <;> cases f.cfg.audio_kcp <;> rfl

theorem frameExHdr_lt : frameExHdr f.cfg f.info f.both_eyes < 65536 := by
  rw [frameExHdr_eq]
  cases needEvenOdd f.cfg <;> cases f.info.even_odd <;> cases fullWidth f.cfg f.info <;>
    cases f.both_eyes <;> cases f.cfg.audio_kcp <;> decide

theorem threadHdr_eq (info : TermInfo) (i : ℕ) (tail : Tail) :
    threadHdr info i tail.1.length = rowsOf info i % 32 * 2 ^ 11 + tail.1.length := by
  have hlen : tail.1.length ≤ 1444 := tail.2
  have hmask : ∀ v : ℕ, v % 65536 &&& ((1 <<< RP_KCP_HDR_RC_NBITS) - 1) = v % 32 := by
    intro v
    rw [show (1 <<< RP_KCP_HDR_RC_NBITS) - 1 = 2 ^ 5 - 1 from rfl, Nat.and_two_pow_sub_one_eq_mod]
    omega
  unfold threadHdr
  rw [hmask, Nat.mod_eq_of_lt (by omega), RP_KCP_HDR_SIZE_NBITS, or_shift' 11 _ (by omega)]

/-! ### The stream of a frame -/

/-- The bytes of the header words. -/
def hdrBytes : List UInt8 :=
  le16 (frameHdr f.cfg f.info f.ret) ++
    if exHdr f.cfg f.info then le16 (frameExHdr f.cfg f.info f.both_eyes) else []

/-- The thread words. -/
def words : List ℕ := f.threads.map fun i => threadHdr f.info i (f.tail i).1.length

theorem length_hdrBytes :
    f.hdrBytes.length = if exHdr f.cfg f.info then 4 else 2 := by
  unfold hdrBytes
  split_ifs <;> rfl

theorem mapM_some {α : Type} (g : ℕ → α) (l : List ℕ) :
    l.mapM (fun i => some (g i)) = some (l.map g) := by
  induction l with
  | nil => rfl
  | cons i l ih => simp [ih]

theorem mapIdx_tails :
    ((f.threads.map f.tail).mapIdx fun i tail => le16 (threadHdr f.info i tail.1.length)) =
      f.words.map le16 := by
  unfold words threads
  refine List.ext_getElem (by simp) fun i h1 h2 => ?_
  simp

/-- **What is sent**: packets whose bytes are the header words, the thread words, the tails and the
padding. -/
theorem send_spec : ∃ t : Terms, t.Ok f.cfg.audio_kcp ∧
    f.send (fun _ => true) =
      some (t.full.map (termPacket f.w false) ++ [termPacket f.w true t.cur]) ∧
    t.stream f.cfg.audio_kcp = f.hdrBytes ++ f.words.flatMap le16 ++ f.tails.flatten ∧
    (t.full ≠ [] → (contHdr f.cfg.audio_kcp).length < t.cur.length) := by
  set v2 := f.cfg.audio_kcp with hv2
  obtain ⟨t1, h1⟩ := copyToTerms_isSome v2 ⟨[], []⟩ (le16 (frameHdr f.cfg f.info f.ret))
  obtain ⟨hok1, hst1, hc1⟩ := copyToTerms_spec (Terms.ok_empty v2) h1
  -- the second header word, when there is one
  obtain ⟨t2, h2, hok2, hst2, hc2⟩ : ∃ t2, (if exHdr f.cfg f.info then
      copyToTerms (fun _ => true) v2 t1 (le16 (frameExHdr f.cfg f.info f.both_eyes))
      else some t1) = some t2 ∧ t2.Ok v2 ∧ t2.stream v2 = f.hdrBytes ∧
      (t2.full ≠ [] → (contHdr v2).length < t2.cur.length) := by
    have hst0 : t1.stream v2 = le16 (frameHdr f.cfg f.info f.ret) := hst1
    unfold hdrBytes
    split_ifs with hx
    · obtain ⟨t2, h2⟩ := copyToTerms_isSome v2 t1 (le16 (frameExHdr f.cfg f.info f.both_eyes))
      obtain ⟨hok2, hst2, hc2⟩ := copyToTerms_spec hok1 h2
      exact ⟨t2, h2, hok2, by rw [hst2, hst0], hc2 (by simp [le16])⟩
    · exact ⟨t1, rfl, hok1, by rw [hst0, List.append_nil], hc1 (by simp [le16])⟩
  obtain ⟨t3, h3⟩ := copyAll_isSome v2 t2 (f.words.map le16)
  obtain ⟨hok3, hst3, hc3⟩ := copyAll_spec hok2 hc2 h3
  obtain ⟨t4, h4⟩ := copyAll_isSome v2 t3 f.tails
  obtain ⟨hok4, hst4, hc4⟩ := copyAll_spec hok3 hc3 h4
  refine ⟨t4, hok4, ?_, ?_, hc4⟩
  · have htails : (f.threads.map f.tail).map (·.1) = f.tails := by simp [tails]
    have h5 : copyAll (fun _ => true) v2 t2 ((f.threads.map f.tail).mapIdx fun i tail =>
        le16 (threadHdr f.info i tail.1.length)) = some t3 := by rw [mapIdx_tails, h3]
    have h6 : copyAll (fun _ => true) v2 t3 ((f.threads.map f.tail).map (·.1)) = some t4 := by
      rw [htails, h4]
    unfold send sendTermDsts
    rw [if_neg (by simp), if_neg (by simp)]
    rw [show List.range f.info.core_count.get = f.threads from rfl]
    cases hx : exHdr f.cfg f.info <;> rw [hx] at h2 <;>
      simp only [Bool.false_eq_true, ↓reduceIte, Option.some.injEq] at h2 ⊢
    · subst h2
      simp only [← hv2, h1, mapM_some, h5, h6, Option.bind_eq_bind, Option.bind_some]
    · simp only [← hv2, h1, h2, mapM_some, h5, h6, Option.bind_eq_bind, Option.bind_some]
  · rw [hst4, hst3, hst2, List.flatMap_def]

theorem data_eq {t : Terms} {v2 : Bool} (ht : t.Ok v2) :
    (t.full.map (termPacket f.w false) ++ [termPacket f.w true t.cur]).map TermPacket.data =
      t.full ++ [t.cur ++ List.replicate (ARQ_RP_DATA_SIZE - t.cur.length) 0] := by
  have hfull : t.full.map (TermPacket.data ∘ termPacket f.w false) = t.full := by
    refine (List.map_congr_left fun p hp => ?_).trans (List.map_id _)
    simp [termPacket, ht.full p hp]
  simp only [List.map_append, List.map_map, hfull, List.map_cons, List.map_nil, termPacket]

theorem length_stream_le {t : Terms}
    (hst : t.stream f.cfg.audio_kcp = f.hdrBytes ++ f.words.flatMap le16 ++ f.tails.flatten) :
    (t.stream f.cfg.audio_kcp).length ≤
      ARQ_RP_DATA_SIZE + RP_CORE_COUNT_MAX * (ARQ_RP_DATA_SIZE - 4) := by
  have hh : f.hdrBytes.length ≤ 4 := by rw [length_hdrBytes]; split_ifs <;> omega
  have hn := f.info.core_count.get_le
  have hw : (f.words.flatMap le16).length = f.info.core_count.get * 2 := by
    simp [List.length_flatMap, words, threads, Function.comp_def]
  have ht : f.tails.flatten.length ≤ f.info.core_count.get * ARQ_RP_DATA_SIZE := by
    unfold tails threads
    rw [List.length_flatten]
    refine (List.sum_le_card_nsmul _ ARQ_RP_DATA_SIZE ?_).trans (by simp)
    simp only [List.map_map, List.mem_map, Function.comp_apply, forall_exists_index, and_imp,
      forall_apply_eq_imp_iff₂]
    exact fun i _ => (f.tail i).2
  rw [hst, List.length_append, List.length_append, hw]
  simp only [ARQ_RP_DATA_SIZE, ARQ_DATA_SIZE, PACKET_SIZE, ARQ_OVERHEAD_SIZE, ARQ_DATA_HDR_SIZE,
    RP_CORE_COUNT_MAX] at *
  omega

/-! ### Reading it back -/

theorem frameHdr_fields (hdr : ℕ) (h : frameHdr f.cfg f.info f.ret = hdr) :
    hdr / 2 ^ 15 % 2 = (exHdr f.cfg f.info).toNat ∧ hdr / 2 ^ 13 % 4 = f.cfg.downsample.val ∧
      hdr / 2 ^ 12 % 2 = (deltaProgQuality f.cfg f.ret).1.toNat ∧
      hdr / 2 ^ 10 % 4 = f.cfg.chroma_ss.val ∧ hdr / 2 ^ 9 % 2 = isTopIndex f.info.is_top ∧
      hdr / 2 ^ 7 % 4 = f.info.core_count.get ∧ hdr % 2 ^ 7 = (deltaProgQuality f.cfg f.ret).2 := by
  obtain ⟨hd, hp, hc, hs, hn⟩ := f.fields_lt
  have hq := f.quality_lt
  have hx := Bool.toNat_lt (exHdr f.cfg f.info)
  rw [frameHdr_eq] at h
  omega

theorem frameExHdr_fields (hdr : ℕ) (h : frameExHdr f.cfg f.info f.both_eyes = hdr) :
    hdr % 2 = (needEvenOdd f.cfg && f.info.even_odd).toNat ∧
      hdr / 2 % 2 = (fullWidth f.cfg f.info).toNat ∧
      hdr / 4 % 2 = (fullWidth f.cfg f.info && f.both_eyes).toNat ∧
      hdr / 2 ^ 14 % 2 = f.cfg.audio_kcp.toNat := by
  have h1 := Bool.toNat_lt (needEvenOdd f.cfg && f.info.even_odd)
  have h2 := Bool.toNat_lt (fullWidth f.cfg f.info)
  have h3 := Bool.toNat_lt (fullWidth f.cfg f.info && f.both_eyes)
  have h4 := Bool.toNat_lt f.cfg.audio_kcp
  rw [frameExHdr_eq] at h
  omega

/-- Without a second word its fields are all clear. -/
theorem frameExHdr_of_not_exHdr (h : exHdr f.cfg f.info = false) :
    frameExHdr f.cfg f.info f.both_eyes = 0 := by
  simp only [exHdr, decide_eq_false_iff_not, not_or, Bool.not_eq_true] at h
  simp [frameExHdr, h]

theorem words_fields :
    f.words.map (· % 2 ^ RP_KCP_HDR_SIZE_NBITS) = f.tails.map List.length ∧
      f.words.map (· / 2 ^ RP_KCP_HDR_SIZE_NBITS) = f.rows.map (· % 2 ^ RP_KCP_HDR_RC_NBITS) := by
  unfold words tails rows
  simp only [List.map_map]
  constructor <;> refine List.map_congr_left fun i _ => ?_
  · have hlen : (f.tail i).1.length ≤ 1444 := (f.tail i).2
    simp only [Function.comp_apply, threadHdr_eq, RP_KCP_HDR_SIZE_NBITS]
    omega
  · have hlen : (f.tail i).1.length ≤ 1444 := (f.tail i).2
    simp only [Function.comp_apply, threadHdr_eq, RP_KCP_HDR_SIZE_NBITS, RP_KCP_HDR_RC_NBITS]
    omega

theorem words_lt : ∀ x ∈ f.words, x < 65536 := by
  unfold words
  intro x hx
  obtain ⟨i, -, rfl⟩ := List.mem_map.mp hx
  have hlen : (f.tail i).1.length ≤ 1444 := (f.tail i).2
  rw [threadHdr_eq]
  omega

theorem read_hdrs {p q s : List UInt8} (hp : 4 ≤ p.length) (h : p ++ q = f.hdrBytes ++ s) :
    ∃ rest rest', read16 p = some (frameHdr f.cfg f.info f.ret, rest) ∧
      readExHdr (frameHdr f.cfg f.info f.ret) rest =
        some (frameExHdr f.cfg f.info f.both_eyes, rest') := by
  have hx := (f.frameHdr_fields _ rfl).1
  simp only [readExHdr, EX_HDR_BIT, hx, Bool.toNat_eq_one]
  rw [hdrBytes, List.append_assoc] at h
  obtain ⟨p1, hr1, hcat1⟩ := read16_prefix f.frameHdr_lt (by omega) h
  have hp1 : 2 ≤ p1.length := by have := read16_length hr1; omega
  cases hex : exHdr f.cfg f.info
  · exact ⟨p1, p1, hr1, by rw [frameExHdr_of_not_exHdr f hex]; rfl⟩
  · rw [hex, if_pos rfl] at hcat1
    obtain ⟨p2, hr2, -⟩ := read16_prefix f.frameExHdr_lt hp1 hcat1
    exact ⟨p1, p2, hr1, hr2⟩

theorem decodeBody_eq {ps : List (List UInt8)} {pad : List UInt8}
    (h : unTerms f.cfg.audio_kcp ps =
      f.hdrBytes ++ f.words.flatMap le16 ++ f.tails.flatten ++ pad) :
    decodeBody (frameHdr f.cfg f.info f.ret) (frameExHdr f.cfg f.info f.both_eyes) ps =
      some (f.contents (f.rows.map (· % 2 ^ RP_KCP_HDR_RC_NBITS))) := by
  obtain ⟨hx, hd, hdp, hc, hs, hn, hq⟩ := f.frameHdr_fields _ rfl
  obtain ⟨he1, he2, he3, he4⟩ := f.frameExHdr_fields _ rfl
  obtain ⟨hw1, hw2⟩ := f.words_fields
  have hdrop : (f.hdrBytes ++ f.words.flatMap le16 ++ f.tails.flatten ++ pad).drop
      (if exHdr f.cfg f.info then 4 else 2) = f.words.flatMap le16 ++ (f.tails.flatten ++ pad) := by
    rw [← f.length_hdrBytes, List.append_assoc, List.append_assoc, List.drop_left]
  have hwords := readN_le16 f.words_lt (f.tails.flatten ++ pad)
  rw [show f.words.length = f.info.core_count.get by simp [words, threads]] at hwords
  simp only [decodeBody, EX_HDR_BIT, EXHDR_V2_BIT, RP_KCP_HDR_QUALITY_NBITS, hx, hd, hdp, hc,
    hs, hn,
    hq, he1, he2, he3, he4, Bool.toNat_eq_one, Bool.decide_eq_true, h, hdrop, hwords,
    Option.bind_eq_bind, Option.bind_some, hw1, hw2, splitAts_flatten]
  rfl

/-- **The receiver reads back what was sent, with the row counts modulo 32.** -/
theorem decode_send {ps : List TermPacket} (h : f.send (fun _ => true) = some ps) :
    decodeTerms (ps.map TermPacket.data) =
      some (f.contents (f.rows.map (· % 2 ^ RP_KCP_HDR_RC_NBITS))) := by
  obtain ⟨t, hok, hsend, hst, -⟩ := f.send_spec
  rw [hsend, Option.some.injEq] at h
  subst h
  rw [f.data_eq hok]
  set pad := List.replicate (ARQ_RP_DATA_SIZE - t.cur.length) (0 : UInt8) with hpad
  have hstream := unTerms_append f.cfg.audio_kcp _ _ pad hok.le_cur
  have hlen : ∀ p ∈ t.full ++ [t.cur ++ pad], p.length = ARQ_RP_DATA_SIZE := by
    intro p hp
    rcases List.mem_append.mp hp with hp | hp
    · exact hok.full p hp
    · rw [List.mem_singleton.mp hp, List.length_append, hpad, List.length_replicate,
        Nat.add_sub_cancel' hok.cur_le]
  obtain ⟨p, ps, hps⟩ := List.exists_cons_of_ne_nil
    (List.append_ne_nil_of_right_ne_nil t.full (List.cons_ne_nil (t.cur ++ pad) []))
  have hunterms : unTerms f.cfg.audio_kcp (p :: ps) =
      f.hdrBytes ++ f.words.flatMap le16 ++ f.tails.flatten ++ pad := by
    rw [← hps, hstream, ← hst]; rfl
  rw [hps] at hlen ⊢
  have hp : 4 ≤ p.length := by rw [hlen p List.mem_cons_self]; decide
  obtain ⟨rest, rest', hr1, hr2⟩ :=
    f.read_hdrs hp (hunterms.trans (by simp only [List.append_assoc]; rfl))
  simp only [decodeTerms, List.head?_cons, Option.bind_eq_bind, Option.bind_some, hr1, hr2,
    f.decodeBody_eq hunterms]

theorem send_length :
    ∃ ps, f.send (fun _ => true) = some ps ∧ ps.length ≤ RP_CORE_COUNT_MAX + 1 := by
  obtain ⟨t, hok, hsend, hst, hc⟩ := f.send_spec
  refine ⟨_, hsend, ?_⟩
  have := packets_le hok hc (f.length_stream_le hst)
  simpa [Terms.packets] using this

/-- The frame with other row counts. -/
def withRows (v_adjusted v_last_adjusted : ℕ) : Frame :=
  { f with info := { f.info with v_adjusted := v_adjusted, v_last_adjusted := v_last_adjusted } }

/-- **Row counts that agree modulo 32 are sent alike.** -/
theorem send_withRows {v v_last : ℕ} (alloc : ℕ → Bool) (hv : v % 32 = f.info.v_adjusted % 32)
    (hl : v_last % 32 = f.info.v_last_adjusted % 32) :
    (f.withRows v v_last).send alloc = f.send alloc := by
  have hrows : ∀ i, rowsOf (f.withRows v v_last).info i % 32 = rowsOf f.info i % 32 := by
    intro i
    unfold rowsOf
    split_ifs with h1 h2 <;> simp_all [withRows]
  have hthread : threadHdr (f.withRows v v_last).info = threadHdr f.info := by
    funext i size
    have h32 : (1 <<< RP_KCP_HDR_RC_NBITS) - 1 = 2 ^ 5 - 1 := rfl
    unfold threadHdr
    rw [h32, Nat.and_two_pow_sub_one_eq_mod, Nat.and_two_pow_sub_one_eq_mod,
      Nat.mod_mod_of_dvd _ (by decide), Nat.mod_mod_of_dvd _ (by decide)]
    exact congrArg (size % 65536 ||| · <<< RP_KCP_HDR_SIZE_NBITS) (hrows i)
  unfold send sendTermDsts
  rw [hthread]
  rfl

end Frame

/-- **The frame terminator is read back exactly when every row count fits its field.** -/
theorem termOk_iff_rowsFit (f : Frame) : f.TermOk ↔ f.RowsFit := by
  obtain ⟨ps, hps, hlen⟩ := f.send_length
  have hdec := f.decode_send hps
  have hrows : (f.rows.map (· % 2 ^ RP_KCP_HDR_RC_NBITS) = f.rows) ↔ f.RowsFit := by
    unfold Frame.RowsFit
    rw [← List.map_id f.rows, List.map_map, List.map_inj_left, List.map_id]
    exact forall₂_congr fun v _ => Nat.mod_eq_iff_lt (by decide)
  constructor
  · rintro ⟨ps', hps', -, hdec'⟩
    rw [hps, Option.some.injEq] at hps'
    subst hps'
    rw [hdec, Option.some.injEq] at hdec'
    exact hrows.mp (congrArg TermFrame.rows hdec')
  · intro h
    exact ⟨ps, hps, hlen, by rw [hdec, hrows.mpr h]⟩

/-- A 4:4:4 frame of a double-width top screen, encoded by two threads that leave empty tails. -/
def wideFrame : Frame where
  w := ⟨0, Nat.zero_lt_two⟩
  cfg := ⟨.ss444, .none, .both, false, false⟩
  info := ⟨true, .two, 50, 50, false⟩
  both_eyes := false
  ret := .jpegRet ⟨80, by decide⟩
  tail := fun _ => ⟨[], Nat.zero_le _⟩

/-- **Two frames of one run, divided among the threads as 50 + 50 and as 82 + 18 rows, are sent in
the same packets.** -/
theorem wideFrame_ambiguous :
    (∃ run, rowsRun (jpegMcuRows .ss444 .none (rpScreenHeight true .both)) .two
        (lastRestartRange false) 0 (List.replicate 23 false) = some run ∧
      (50, 50) ∈ run ∧ (82, 18) ∈ run) ∧
    (wideFrame.withRows 82 18).send (fun _ => true) = wideFrame.send (fun _ => true) ∧
    (wideFrame.withRows 82 18).rows ≠ wideFrame.rows ∧
    ¬ wideFrame.TermOk ∧ ¬ (wideFrame.withRows 82 18).TermOk := by
  refine ⟨⟨_, rfl, by decide, by decide⟩, wideFrame.send_withRows _ rfl rfl, by decide, ?_, ?_⟩
  · rintro ⟨ps, hps, -, hdec⟩
    rw [wideFrame.decode_send hps, Option.some.injEq] at hdec
    exact absurd (congrArg TermFrame.rows hdec) (by decide)
  · rintro ⟨ps, hps, -, hdec⟩
    rw [(wideFrame.withRows 82 18).decode_send hps, Option.some.injEq] at hdec
    exact absurd (congrArg TermFrame.rows hdec) (by decide)

end RemotePlay.Term
