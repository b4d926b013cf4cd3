import RemotePlay.Jpeg.FileFormat
import RemotePlay.Jpeg.History

/-! # The headers

`write_headers` puts the segments before the scan.  Byte by byte that is one string
(`writeHeaders_eq`), and a decoder reads the tables, the frame, the restart interval and the scan
from it as they are (`readSegments_headers`). -/

namespace RemotePlay.Jpeg

open RemotePlay.Lib RemotePlay.Encode RemotePlay.Work Function

/-! ### Writing -/

/-- `CompInfo`, in so far as the headers have it. -/
structure HeaderComp where
  component_id : ℕ
  h_samp_factor : ℕ
  v_samp_factor : ℕ
  quant_tbl_no : ℕ
  dc_tbl_no : ℕ
  ac_tbl_no : ℕ
  deriving DecidableEq, Repr

/-- The factors and the numbers of the entropy tables share bytes. -/
structure HeaderComp.Small (c : HeaderComp) : Prop where
  id_lt : c.component_id < 2 ^ 8
  h_lt : c.h_samp_factor < 2 ^ 4
  v_lt : c.v_samp_factor < 2 ^ 4
  quant_lt : c.quant_tbl_no < 2 ^ 8
  dc_lt : c.dc_tbl_no < 2 ^ 4
  ac_lt : c.ac_tbl_no < 2 ^ 4

/-- `set_comp`. -/
def setComp (id h_samp_exp v_samp_exp quant dctbl actbl : ℕ) : HeaderComp :=
  ⟨id, 1 <<< h_samp_exp, 1 <<< v_samp_exp, quant, dctbl, actbl⟩

/-- `set_color_space_ycb_cr_420` and the like. -/
def headerComps : ChromaSs → Fin MAX_COMPONENTS → HeaderComp
  | .ss420 => ![setComp 1 1 1 0 0 0, setComp 2 0 0 1 1 1, setComp 3 0 0 1 1 1]
  | .ss422 => ![setComp 1 1 0 0 0 0, setComp 2 0 0 1 1 1, setComp 3 0 0 1 1 1]
  | .ss444 => ![setComp 1 0 0 0 0 0, setComp 2 0 0 1 1 1, setComp 3 0 0 1 1 1]

/-- A `HuffTbl` that its arrays hold: the number of codes of each length, and the symbols. -/
structure WireTbl where
  counts : List ℕ
  vals : List ℕ
  length_counts : counts.length = 16
  sum_counts : counts.sum = vals.length
  length_vals : vals.length < 256
  counts_lt : ∀ c ∈ counts, c < 256
  vals_lt : ∀ v ∈ vals, v < 256

/-- The table of a decoder, its list of symbols filled up with zeros. -/
def WireTbl.tbl (w : WireTbl) : HuffTbl :=
  ⟨0 :: w.counts, w.vals ++ List.replicate (256 - w.vals.length) 0⟩

/-- What `write_headers` reads. -/
structure HeaderData where
  core_count : CoreCount
  quant_val : TblNo → Fin 64 → ℕ
  dc_huff : TblNo → WireTbl
  ac_huff : TblNo → WireTbl
  height : ℕ
  width : ℕ
  infos : Fin MAX_COMPONENTS → HeaderComp
  restart_interval : ℕ
  quant_lt : ∀ t i, quant_val t i < 2 ^ 8
  height_lt : height < 2 ^ 16
  width_lt : width < 2 ^ 16
  infos_small : ∀ i, (infos i).Small
  restart_lt : restart_interval < 2 ^ 16

/-- The index of a table. -/
def TblNo.index : TblNo → ℕ
  | luminance => 0
  | chrominance => 1

section

variable (P : PacketDataSize)

/-- `write_marker`. -/
def writeMarker (mark : UInt8) (dst : WorkerDst) : WorkerDst :=
  (dst.writeByte P 0xff).writeByte P mark

/-- `write_2bytes`. -/
def write2bytes (value : ℕ) (dst : WorkerDst) : WorkerDst :=
  (dst.writeByte P (UInt8.ofNat (value >>> 8 &&& 0xff))).writeByte P (UInt8.ofNat (value &&& 0xff))

/-- `write_byte`, of each. -/
def writeEach (values : List UInt8) (dst : WorkerDst) : WorkerDst :=
  values.foldl (fun dst value => dst.writeByte P value) dst

/-- `write_jfif_app0`. -/
def writeJfifApp0 (dst : WorkerDst) : WorkerDst :=
  let dst := writeMarker P M_APP0 dst
  let dst := write2bytes P (2 + 4 + 1 + 2 + 1 + 2 + 2 + 1 + 1) dst
  let dst := writeEach P [0x4a, 0x46, 0x49, 0x46, 0] dst
  let dst := writeEach P [1, 1] dst
  let dst := writeEach P [0] dst
  let dst := write2bytes P 1 dst
  let dst := write2bytes P 1 dst
  writeEach P [0, 0] dst

/-- `write_dqt`. -/
def writeDqt (quant_val : Fin 64 → ℕ) (index : ℕ) (dst : WorkerDst) : WorkerDst :=
  let dst := writeMarker P M_DQT dst
  let dst := write2bytes P (DCTSIZE2 + 1 + 2) dst
  let dst := dst.writeByte P (UInt8.ofNat index)
  JPEG_NATURAL_ORDER.foldl (fun dst k =>
    dst.writeByte P (UInt8.ofNat (if h : k < 64 then quant_val ⟨k, h⟩ else 0))) dst

/-- `write_dht`. -/
def writeDht (tbl : HuffTbl) (index : ℕ) (is_ac : Bool) (dst : WorkerDst) : WorkerDst :=
  let index := if is_ac then index ||| 0x10 else index
  let dst := writeMarker P M_DHT dst
  let length := ((List.range 16).map fun i => tbl.bits.getD (i + 1) 0).sum % 2 ^ 16
  let dst := write2bytes P (length + 2 + 1 + 16) dst
  let dst := dst.writeByte P (UInt8.ofNat index)
  let dst := (List.range 16).foldl (fun dst i =>
    dst.writeByte P (UInt8.ofNat (tbl.bits.getD (i + 1) 0))) dst
  -- the bound of the loop is an `u8`
  (List.range (length % 2 ^ 8)).foldl (fun dst i =>
    dst.writeByte P (UInt8.ofNat (tbl.huffVals.getD i 0))) dst

variable (d : HeaderData)

/-- `write_dri`. -/
def writeDri (dst : WorkerDst) : WorkerDst :=
  let dst := writeMarker P M_DRI dst
  let dst := write2bytes P 4 dst
  write2bytes P d.restart_interval dst

/-- `write_sos`. -/
def writeSos (dst : WorkerDst) : WorkerDst :=
  let dst := writeMarker P M_SOS dst
  let dst := write2bytes P (2 * MAX_COMPONENTS + 2 + 1 + 3) dst
  let dst := dst.writeByte P (UInt8.ofNat MAX_COMPONENTS)
  let dst := (List.finRange MAX_COMPONENTS).foldl (fun dst i =>
    (dst.writeByte P (UInt8.ofNat (d.infos i).component_id)).writeByte P
      (UInt8.ofNat ((d.infos i).dc_tbl_no <<< 4 + (d.infos i).ac_tbl_no))) dst
  writeEach P [0, UInt8.ofNat (DCTSIZE2 - 1), 0] dst

/-- `write_sof`. -/
def writeSof (code : UInt8) (dst : WorkerDst) : WorkerDst :=
  let dst := writeMarker P code dst
  let dst := write2bytes P (3 * MAX_COMPONENTS + 2 + 5 + 1) dst
  let dst := dst.writeByte P 8
  let dst := write2bytes P d.height dst
  let dst := write2bytes P d.width dst
  let dst := dst.writeByte P (UInt8.ofNat MAX_COMPONENTS)
  (List.finRange MAX_COMPONENTS).foldl (fun dst i =>
    ((dst.writeByte P (UInt8.ofNat (d.infos i).component_id)).writeByte P
      (UInt8.ofNat ((d.infos i).h_samp_factor <<< 4 + (d.infos i).v_samp_factor))).writeByte P
        (UInt8.ofNat (d.infos i).quant_tbl_no)) dst

/-- `write_headers`. -/
def writeHeaders (dst : WorkerDst) : WorkerDst :=
  let dst := writeMarker P M_SOI dst
  let dst := writeJfifApp0 P dst
  let dst := [TblNo.luminance, .chrominance].foldl
    (fun dst t => writeDqt P (d.quant_val t) t.index dst) dst
  let dst := writeSof P d M_SOF0 dst
  let dst := [TblNo.luminance, .chrominance].foldl (fun dst t =>
    writeDht P (d.ac_huff t).tbl t.index true (writeDht P (d.dc_huff t).tbl t.index false dst)) dst
  let dst := if d.core_count.get > 1 then writeDri P d dst else dst
  writeSos P d dst

/-- `write_rst`. -/
def writeRst (thread_index : ℕ) (dst : WorkerDst) : WorkerDst :=
  writeMarker P (M_RST0 + UInt8.ofNat thread_index) dst

/-- `write_trailer`. -/
def writeTrailer (dst : WorkerDst) : WorkerDst := writeMarker P M_EOI dst

end

/-! ### The bytes -/

/-- The bytes of the JFIF segment: version 1.1, square pixels, no thumbnail. -/
def app0Payload : List UInt8 := [0x4a, 0x46, 0x49, 0x46, 0, 1, 1, 0, 0, 1, 0, 1, 0, 0]

/-- The bytes of a quantisation table. -/
def dqtPayload (quant_val : Fin 64 → ℕ) (index : ℕ) : List UInt8 :=
  UInt8.ofNat index :: JPEG_NATURAL_ORDER.map fun k =>
    UInt8.ofNat (if h : k < 64 then quant_val ⟨k, h⟩ else 0)

/-- The bytes of a Huffman table. -/
def dhtPayload (w : WireTbl) (index : ℕ) : List UInt8 :=
  UInt8.ofNat index :: (w.counts.map UInt8.ofNat ++ w.vals.map UInt8.ofNat)

section

variable (d : HeaderData)

/-- The bytes of the restart interval. -/
def driPayload : List UInt8 :=
  [UInt8.ofNat (d.restart_interval / 256), UInt8.ofNat d.restart_interval]

/-- The bytes of the scan header. -/
def sosPayload : List UInt8 :=
  3 :: ((List.finRange MAX_COMPONENTS).flatMap fun i => [UInt8.ofNat (d.infos i).component_id,
    UInt8.ofNat ((d.infos i).dc_tbl_no <<< 4 + (d.infos i).ac_tbl_no)]) ++ [0, 63, 0]

/-- The bytes of the frame header. -/
def sofPayload : List UInt8 :=
  [8, UInt8.ofNat (d.height / 256), UInt8.ofNat d.height, UInt8.ofNat (d.width / 256),
    UInt8.ofNat d.width, 3] ++ (List.finRange MAX_COMPONENTS).flatMap fun i =>
      [UInt8.ofNat (d.infos i).component_id,
        UInt8.ofNat ((d.infos i).h_samp_factor <<< 4 + (d.infos i).v_samp_factor),
        UInt8.ofNat (d.infos i).quant_tbl_no]

end

section

variable {P : PacketDataSize}

theorem writeEach_append (xs ys : List UInt8) (dst : WorkerDst) :
    writeEach P (xs ++ ys) dst = writeEach P ys (writeEach P xs dst) := List.foldl_append

theorem foldl_writeEach {α : Type} (f : α → List UInt8) (xs : List α) (dst : WorkerDst) :
    xs.foldl (fun dst x => writeEach P (f x) dst) dst = writeEach P (xs.flatMap f) dst := by
  induction xs generalizing dst with
  | nil => rfl
  | cons x xs ih => rw [List.foldl_cons, ih, List.flatMap_cons, writeEach_append]

theorem foldl_writeByte_map {α : Type} (f : α → UInt8) (xs : List α) (dst : WorkerDst) :
    xs.foldl (fun dst x => dst.writeByte P (f x)) dst = writeEach P (xs.map f) dst := by
  rw [writeEach, List.foldl_map]

theorem write2bytes_eq (value : ℕ) (dst : WorkerDst) : write2bytes P value dst =
    writeEach P [UInt8.ofNat (value / 256), UInt8.ofNat value] dst := by
  have hbyte : ∀ x : ℕ, UInt8.ofNat (x &&& 0xff) = UInt8.ofNat x := fun x => by
    rw [show (0xff : ℕ) = 2 ^ 8 - 1 from rfl, Nat.and_two_pow_sub_one_eq_mod]
    exact UInt8.toNat_inj.mp (by simp)
  rw [write2bytes, hbyte, hbyte, Nat.shiftRight_eq_div_pow]
  rfl

/-- **A segment**, once its length is that of what follows. -/
theorem writeEach_segment {m : UInt8} {payload : List UInt8} {n : ℕ}
    (h : n = payload.length + 2) (dst : WorkerDst) :
    writeEach P payload (write2bytes P n (writeMarker P m dst)) =
      writeEach P (segment m payload) dst := by
  rw [write2bytes_eq, h]
  rfl

theorem writeMarker_eq (m : UInt8) (dst : WorkerDst) :
    writeMarker P m dst = writeEach P [0xff, m] dst := rfl

theorem writeByte_eq (b : UInt8) (dst : WorkerDst) : dst.writeByte P b = writeEach P [b] dst := rfl

theorem writeJfifApp0_eq (dst : WorkerDst) :
    writeJfifApp0 P dst = writeEach P (segment M_APP0 app0Payload) dst := by
  simp only [writeJfifApp0, writeMarker_eq, write2bytes_eq, ← writeEach_append]
  exact congrArg (writeEach P · dst) (by decide)

theorem writeDqt_eq (quant_val : Fin 64 → ℕ) (index : ℕ) (dst : WorkerDst) :
    writeDqt P quant_val index dst =
      writeEach P (segment M_DQT (dqtPayload quant_val index)) dst := by
  rw [← writeEach_segment (n := DCTSIZE2 + 1 + 2)
    (by rw [dqtPayload, List.length_cons, List.length_map]; rfl)]
  rw [writeDqt, foldl_writeByte_map, writeByte_eq, ← writeEach_append]
  rfl

/-- **A table** is written as it is. -/
theorem writeDht_eq (w : WireTbl) (index : ℕ) (is_ac : Bool) (dst : WorkerDst) :
    writeDht P w.tbl index is_ac dst = writeEach P
      (segment M_DHT (dhtPayload w (if is_ac then index ||| 0x10 else index))) dst := by
  have hcounts : (List.range 16).map (fun i => w.tbl.bits.getD (i + 1) 0) = w.counts := by
    have h := map_getD_range w.length_counts.ge
    rw [List.take_of_length_le w.length_counts.le] at h
    exact h
  have hvals : (List.range w.vals.length).map (fun i => w.tbl.huffVals.getD i 0) = w.vals := by
    rw [map_getD_range (by simp [WireTbl.tbl])]
    exact List.take_left
  have hlt := w.length_vals
  rw [← writeEach_segment (n := w.vals.length + 2 + 1 + 16)
    (by simp only [dhtPayload, List.length_cons, List.length_append, List.length_map,
      w.length_counts]; omega)]
  have hvals' : (List.range w.vals.length).map (fun i => UInt8.ofNat (w.tbl.huffVals.getD i 0)) =
      w.vals.map UInt8.ofNat := by
    conv_rhs => rw [← hvals, List.map_map]
    rfl
  have hcounts' : (List.range 16).map (fun i => UInt8.ofNat (w.tbl.bits.getD (i + 1) 0)) =
      w.counts.map UInt8.ofNat := by
    conv_rhs => rw [← hcounts, List.map_map]
    rfl
  simp only [writeDht, hcounts, w.sum_counts, foldl_writeByte_map]
  rw [Nat.mod_eq_of_lt (by omega : w.vals.length < 2 ^ 16),
    Nat.mod_eq_of_lt (by omega : w.vals.length < 2 ^ 8), hvals', hcounts']
  simp only [writeByte_eq, ← writeEach_append]
  rfl

variable (d : HeaderData)

theorem writeDri_eq (dst : WorkerDst) :
    writeDri P d dst = writeEach P (segment M_DRI (driPayload d)) dst := by
  rw [← writeEach_segment (n := 4) rfl, driPayload, ← write2bytes_eq]
  rfl

theorem writeSos_eq (dst : WorkerDst) :
    writeSos P d dst = writeEach P (segment M_SOS (sosPayload d)) dst := by
  rw [← writeEach_segment (n := 2 * MAX_COMPONENTS + 2 + 1 + 3) rfl]
  simp only [writeSos, writeByte_eq, ← writeEach_append, foldl_writeEach]
  rfl

theorem writeSof_eq (code : UInt8) (dst : WorkerDst) :
    writeSof P d code dst = writeEach P (segment code (sofPayload d)) dst := by
  rw [← writeEach_segment (n := 3 * MAX_COMPONENTS + 2 + 5 + 1) rfl]
  simp only [writeSof, write2bytes_eq d.height, write2bytes_eq d.width, writeByte_eq,
    ← writeEach_append, foldl_writeEach]
  rfl

/-- The segments before that of the scan. -/
def headerSegs : List (UInt8 × List UInt8) :=
  (M_APP0, app0Payload) ::
    ([TblNo.luminance, .chrominance].map fun t => (M_DQT, dqtPayload (d.quant_val t) t.index)) ++
    (M_SOF0, sofPayload d) ::
    ([TblNo.luminance, .chrominance].flatMap fun t => [(M_DHT, dhtPayload (d.dc_huff t) t.index),
      (M_DHT, dhtPayload (d.ac_huff t) (t.index ||| 0x10))]) ++
    if d.core_count.get > 1 then [(M_DRI, driPayload d)] else []

/-- All bytes of the headers. -/
def headerBytes : List UInt8 :=
  [0xff, M_SOI] ++ ((headerSegs d).flatMap fun g => segment g.1 g.2) ++ segment M_SOS (sosPayload d)

/-- **The headers are their segments.** -/
theorem writeHeaders_eq (dst : WorkerDst) :
    writeHeaders P d dst = writeEach P (headerBytes d) dst := by
  rw [writeHeaders, headerBytes, headerSegs]
  simp only [List.foldl_cons, List.foldl_nil, writeMarker_eq, writeJfifApp0_eq, writeDqt_eq,
    writeSof_eq, writeDht_eq, writeDri_eq, writeSos_eq, if_true, Bool.false_eq_true, if_false]
  split_ifs with h
  · simp only [← writeEach_append, List.map_cons, List.map_nil, List.flatMap_cons,
      List.flatMap_nil, List.cons_append, List.append_assoc, List.append_nil, List.nil_append]
  · simp only [← writeEach_append, List.map_cons, List.map_nil, List.flatMap_cons,
      List.flatMap_nil, List.cons_append, List.append_assoc, List.append_nil, List.nil_append]

end

/-! ### Reading -/

section

variable (d : HeaderData)

/-- The frame header that a decoder reads. -/
def headerFrame : FrameHdr :=
  ⟨d.height, d.width, (List.finRange MAX_COMPONENTS).map fun i =>
    ⟨(d.infos i).component_id, (d.infos i).h_samp_factor, (d.infos i).v_samp_factor,
      (d.infos i).quant_tbl_no⟩⟩

/-- What the headers say. -/
def headerSegments : Segments where
  quant := update (update (fun _ => none) 0 (some (d.quant_val .luminance))) 1
    (some (d.quant_val .chrominance))
  dc := update (update (fun _ => none) 0 (some (d.dc_huff .luminance).tbl)) 1
    (some (d.dc_huff .chrominance).tbl)
  ac := update (update (fun _ => none) 0 (some (d.ac_huff .luminance).tbl)) 1
    (some (d.ac_huff .chrominance).tbl)
  frame := some (headerFrame d)
  restart_interval := if d.core_count.get > 1 then d.restart_interval else 0

/-- The scan header that a decoder reads. -/
def headerScan : List ScanComp := (List.finRange MAX_COMPONENTS).map fun i =>
  ⟨(d.infos i).component_id, (d.infos i).dc_tbl_no, (d.infos i).ac_tbl_no⟩

end

theorem toNat_ofNat_lt {n : ℕ} (h : n < 2 ^ 8) : (UInt8.ofNat n).toNat = n := by
  rw [UInt8.toNat_ofNat', Nat.mod_eq_of_lt h]

theorem toNat_halves {hi lo : ℕ} (h1 : hi < 2 ^ 4) (h2 : lo < 2 ^ 4) :
    (UInt8.ofNat (hi <<< 4 + lo)).toNat / 16 = hi ∧
      (UInt8.ofNat (hi <<< 4 + lo)).toNat % 16 = lo := by
  rw [Nat.shiftLeft_eq, toNat_ofNat_lt (by omega)]
  omega

theorem readDqt_payload (s : Segments) {quant_val : Fin 64 → ℕ} (hq : ∀ i, quant_val i < 2 ^ 8)
    {index : ℕ} (hi : index < 4) : s.readDqt (dqtPayload quant_val index) =
      some { s with quant := update s.quant index (some quant_val) } := by
  have hindex : (UInt8.ofNat index).toNat = index := toNat_ofNat_lt (by omega)
  have hmem : ∀ i : Fin 64, i.val ∈ JPEG_NATURAL_ORDER := by decide
  have hvals : (fun i : Fin 64 => ((JPEG_NATURAL_ORDER.map fun k =>
      UInt8.ofNat (if h : k < 64 then quant_val ⟨k, h⟩ else 0)).getD
        (JPEG_NATURAL_ORDER.idxOf i.val) 0).toNat) = quant_val := by
    funext i
    have hlt := List.idxOf_lt_length_of_mem (hmem i)
    rw [List.getD_eq_getElem _ _ (by rwa [List.length_map]), List.getElem_map,
      toNat_ofNat_lt]
    · simp only [List.getElem_idxOf, i.isLt, dif_pos]
    · simp only [List.getElem_idxOf, i.isLt, dif_pos, hq]
  rw [dqtPayload, Segments.readDqt]
  simp only [hindex, List.length_map, hvals]
  exact if_pos ⟨hi, rfl⟩

theorem map_toNat_ofNat {xs : List ℕ} (h : ∀ x ∈ xs, x < 256) :
    (xs.map UInt8.ofNat).map UInt8.toNat = xs := by
  rw [List.map_map]
  exact (List.map_congr_left fun x hx => toNat_ofNat_lt (h x hx)).trans (List.map_id _)

theorem readDht_payload (s : Segments) (w : WireTbl) {tc_th : ℕ} (h : tc_th < 2 ^ 8) :
    s.readDht (dhtPayload w tc_th) =
      if tc_th < 4 then some { s with dc := update s.dc tc_th (some w.tbl) }
      else if 0x10 ≤ tc_th ∧ tc_th < 0x14 then
        some { s with ac := update s.ac (tc_th - 0x10) (some w.tbl) }
      else none := by
  have hlen : (w.counts.map UInt8.ofNat).length = 16 := by rw [List.length_map, w.length_counts]
  have hlt := w.length_vals
  rw [dhtPayload, Segments.readDht]
  simp only [toNat_ofNat_lt h, List.take_left' hlen, List.drop_left' hlen,
    map_toNat_ofNat w.counts_lt, map_toNat_ofNat w.vals_lt]
  exact if_pos ⟨w.length_counts, w.sum_counts.symm, by rw [w.sum_counts]; omega⟩

theorem readSof_payload (s : Segments) (d : HeaderData) : s.readSof (sofPayload d) =
    some { s with frame := some (headerFrame d) } := by
  have hid := fun i => toNat_ofNat_lt (d.infos_small i).id_lt
  have hhalf := fun i => toNat_halves (d.infos_small i).h_lt (d.infos_small i).v_lt
  have hq := fun i => toNat_ofNat_lt (d.infos_small i).quant_lt
  have hcomps : readFrameComps ((List.finRange MAX_COMPONENTS).flatMap fun i =>
      [UInt8.ofNat (d.infos i).component_id,
        UInt8.ofNat ((d.infos i).h_samp_factor <<< 4 + (d.infos i).v_samp_factor),
        UInt8.ofNat (d.infos i).quant_tbl_no]) = some ((List.finRange MAX_COMPONENTS).map fun i =>
    ⟨(d.infos i).component_id, (d.infos i).h_samp_factor, (d.infos i).v_samp_factor,
      (d.infos i).quant_tbl_no⟩) := by
    induction List.finRange MAX_COMPONENTS with
    | nil => rfl
    | cons i is ih =>
      rw [List.flatMap_cons, List.cons_append, List.cons_append, List.cons_append, List.nil_append,
        readFrameComps, ih, hid, (hhalf i).1, (hhalf i).2, hq]
      rfl
  rw [sofPayload, List.cons_append, List.cons_append, List.cons_append, List.cons_append,
    List.cons_append, List.cons_append, List.nil_append, Segments.readSof, hcomps,
    word16_ofNat d.height_lt, word16_ofNat d.width_lt]
  rfl

theorem readDri_payload (s : Segments) (d : HeaderData) : s.readDri (driPayload d) =
    some { s with restart_interval := d.restart_interval } := by
  rw [driPayload, Segments.readDri, word16_ofNat d.restart_lt]

theorem readSos_payload (d : HeaderData) : readSos (sosPayload d) = some (headerScan d) := by
  have hid := fun i => toNat_ofNat_lt (d.infos_small i).id_lt
  have hhalf := fun i => toNat_halves (d.infos_small i).dc_lt (d.infos_small i).ac_lt
  have hcomps : readScanComps ((List.finRange MAX_COMPONENTS).flatMap fun i =>
      [UInt8.ofNat (d.infos i).component_id,
        UInt8.ofNat ((d.infos i).dc_tbl_no <<< 4 + (d.infos i).ac_tbl_no)]) =
      some (headerScan d) := by
    rw [headerScan]
    induction List.finRange MAX_COMPONENTS with
    | nil => rfl
    | cons i is ih =>
      rw [List.flatMap_cons, List.cons_append, List.cons_append, List.nil_append,
        readScanComps, ih, hid, (hhalf i).1, (hhalf i).2]
      rfl
  have hlen : ((List.finRange MAX_COMPONENTS).flatMap fun i =>
      [UInt8.ofNat (d.infos i).component_id,
        UInt8.ofNat ((d.infos i).dc_tbl_no <<< 4 + (d.infos i).ac_tbl_no)]).length =
      2 * UInt8.toNat 3 := rfl
  rw [sosPayload, List.cons_append, readSos, List.take_left' hlen, List.drop_left' hlen, hcomps]
  rfl

/-- **The segments before the scan say what was written.** -/
theorem foldlM_headerSegs (d : HeaderData) :
    (headerSegs d).foldlM (fun s g => s.readSegment g.1 g.2) Segments.empty =
      some (headerSegments d) := by
  have happ : ∀ s : Segments, s.readSegment M_APP0 app0Payload = some s := fun s => rfl
  have hdqt : ∀ (s : Segments) (t : TblNo),
      s.readSegment M_DQT (dqtPayload (d.quant_val t) t.index) =
      some { s with quant := update s.quant t.index (some (d.quant_val t)) } := fun s t =>
    readDqt_payload s (d.quant_lt t) (by cases t <;> decide)
  have hsof : ∀ s : Segments, s.readSegment M_SOF0 (sofPayload d) =
      some { s with frame := some (headerFrame d) } := fun s => readSof_payload s d
  have hdc : ∀ (s : Segments) (t : TblNo), s.readSegment M_DHT (dhtPayload (d.dc_huff t) t.index) =
      some { s with dc := update s.dc t.index (some (d.dc_huff t).tbl) } := fun s t =>
    (readDht_payload s (d.dc_huff t) (by cases t <;> decide)).trans (by cases t <;> rfl)
  have hac : ∀ (s : Segments) (t : TblNo),
      s.readSegment M_DHT (dhtPayload (d.ac_huff t) (t.index ||| 0x10)) =
        some { s with ac := update s.ac t.index (some (d.ac_huff t).tbl) } := fun s t =>
    (readDht_payload s (d.ac_huff t) (by cases t <;> decide)).trans (by cases t <;> rfl)
  have hdri : ∀ s : Segments, s.restart_interval = 0 →
      (if d.core_count.get > 1 then [(M_DRI, driPayload d)] else []).foldlM
        (fun s g => Segments.readSegment s g.1 g.2) s = some { s with restart_interval :=
          if d.core_count.get > 1 then d.restart_interval else 0 } := fun s h0 => by
    split_ifs with h
    · rw [List.foldlM_cons, show s.readSegment M_DRI (driPayload d) = _ from readDri_payload s d]
      rfl
    · rw [← h0]
      rfl
  rw [headerSegs, List.foldlM_append]
  simp only [List.map_cons, List.map_nil, List.flatMap_cons, List.flatMap_nil, List.cons_append,
    List.nil_append, List.append_nil, List.foldlM_cons, List.foldlM_nil, Option.bind_eq_bind,
    Option.bind_some, happ, hdqt, hsof, hdc, hac]
  exact hdri _ rfl

/-- **The headers are read as they were written**, whatever follows them. -/
theorem readSegments_headers (d : HeaderData) (rest : List UInt8) {fuel : ℕ} (hfuel : 10 ≤ fuel) :
    readSegments fuel Segments.empty (((headerSegs d).flatMap fun g => segment g.1 g.2) ++
      (segment M_SOS (sosPayload d) ++ rest)) = some (headerSegments d, headerScan d, rest) := by
  have hdqt : ∀ (q : Fin 64 → ℕ) (i : ℕ), (dqtPayload q i).length = 65 := fun q i => by
    rw [dqtPayload, List.length_cons, List.length_map]
    rfl
  have hdht : ∀ (w : WireTbl) (i : ℕ), (dhtPayload w i).length + 2 < 2 ^ 16 := fun w i => by
    have := w.length_vals
    simp only [dhtPayload, List.length_cons, List.length_append, List.length_map, w.length_counts]
    omega
  have hsof : (sofPayload d).length + 2 < 2 ^ 16 := by
    rw [show (sofPayload d).length = 15 from rfl]
    decide
  have hsegs : ∀ g ∈ headerSegs d, g.1 ≠ M_SOS ∧ g.2.length + 2 < 2 ^ 16 := by
    have hdri : ∀ g ∈ (if d.core_count.get > 1 then [(M_DRI, driPayload d)] else []),
        g.1 ≠ M_SOS ∧ g.2.length + 2 < 2 ^ 16 := by
      split_ifs
      · exact List.forall_mem_singleton.mpr ⟨(by decide : M_DRI ≠ M_SOS),
          show (driPayload d).length + 2 < 2 ^ 16 from (by decide : 2 + 2 < 2 ^ 16)⟩
      · exact fun g hg => absurd hg List.not_mem_nil
    simp only [headerSegs, List.map_cons, List.map_nil, List.flatMap_cons, List.flatMap_nil,
      List.cons_append, List.nil_append, List.append_nil, List.forall_mem_cons, hdqt, hdht]
    exact ⟨by decide, by decide, by decide, ⟨by decide, hsof⟩, by decide, by decide, by decide,
      by decide, hdri⟩
  have hlen : (headerSegs d).length ≤ 9 := by
    simp only [headerSegs, List.map_cons, List.map_nil, List.flatMap_cons, List.flatMap_nil,
      List.cons_append, List.nil_append, List.append_nil, List.length_cons]
    have hdri : (if d.core_count.get > 1 then [(M_DRI, driPayload d)] else []).length ≤ 1 := by
      split_ifs
      · exact le_rfl
      · exact Nat.zero_le 1
    omega
  obtain ⟨k, rfl⟩ : ∃ k, fuel = (headerSegs d).length + (k + 1) :=
    ⟨fuel - (headerSegs d).length - 1, by omega⟩
  rw [readSegments_flatMap hsegs, foldlM_headerSegs, Option.bind_some, readSegments_sos,
    readSos_payload]
  · rfl
  · rw [show (sosPayload d).length = 10 from rfl]
    decide

/-- **A file that begins with the headers.** -/
theorem readFile_headers {d : HeaderData} {rest : List UInt8} {quant : List (Fin 64 → ℕ)}
    {comps : List McuComp} {mcus : List (List JBlock)}
    (hquant : ((headerFrame d).comps.mapM fun c => (headerSegments d).quant c.tq) = some quant)
    (hcomps : components (headerSegments d) (headerFrame d).comps (headerScan d) = some comps)
    (hmcus : readIntervals comps 0 (intervalSizes (headerFrame d).mcus
      (headerSegments d).restart_interval) rest = some mcus) :
    readFile (headerBytes d ++ rest) = some ⟨headerFrame d, quant, mcus⟩ := by
  have hfile : headerBytes d ++ rest = 0xff :: M_SOI ::
      (((headerSegs d).flatMap fun g => segment g.1 g.2) ++
      (segment M_SOS (sosPayload d) ++ rest)) := by
    rw [headerBytes, List.append_assoc, List.append_assoc]
    rfl
  have hlen : 10 ≤ (((headerSegs d).flatMap fun g => segment g.1 g.2) ++
      (segment M_SOS (sosPayload d) ++ rest)).length := by
    have happ : (segment M_APP0 app0Payload).length = 18 := rfl
    rw [List.length_append, headerSegs, List.cons_append, List.cons_append, List.flatMap_cons,
      List.length_append, happ]
    omega
  have hframe : (headerSegments d).frame = some (headerFrame d) := rfl
  rw [hfile, readFile, if_pos ⟨rfl, rfl⟩, readSegments_headers d rest hlen]
  simp only [Option.bind_eq_bind, Option.bind_some, hframe, hquant, hcomps, hmcus]
  rfl

end RemotePlay.Jpeg
