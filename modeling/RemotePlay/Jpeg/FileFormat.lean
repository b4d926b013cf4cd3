import RemotePlay.Jpeg.Mcu

/-! # The file format

How a decoder reads a whole baseline file.  The segments before the scan give it the tables, the
frame and the restart interval (`readSegments`); the scan is cut at its markers (`readEntropy`), and
in each restart interval the DC predictions start anew (`readIntervals`).  This is the standard's
decoder and no part of the program; one table to a segment and no fill bytes are all it takes.  An
interval that was stuffed is read back up to the marker after it (`readEntropy_stuff`), and so are
those of a whole scan (`readIntervals_scan`). -/

namespace RemotePlay.Jpeg

open RemotePlay.Lib RemotePlay.Encode Bits Function

/-! ### Markers -/

/-- Start of an image. -/
def M_SOI : UInt8 := 0xd8
/-- A segment of an application. -/
def M_APP0 : UInt8 := 0xe0
/-- Quantisation tables. -/
def M_DQT : UInt8 := 0xdb
/-- The header of a baseline frame. -/
def M_SOF0 : UInt8 := 0xc0
/-- Huffman tables. -/
def M_DHT : UInt8 := 0xc4
/-- The restart interval. -/
def M_DRI : UInt8 := 0xdd
/-- Start of a scan. -/
def M_SOS : UInt8 := 0xda
/-- End of an image. -/
def M_EOI : UInt8 := 0xd9
/-- The first of the eight restart markers. -/
def M_RST0 : UInt8 := 0xd0

/-! ### Segments -/

/-- A component of the frame header. -/
structure FrameComp where
  id : ℕ
  h : ℕ
  v : ℕ
  tq : ℕ
  deriving DecidableEq, Repr

/-- The frame header. -/
structure FrameHdr where
  height : ℕ
  width : ℕ
  comps : List FrameComp
  deriving DecidableEq, Repr

/-- A component of the scan header. -/
structure ScanComp where
  id : ℕ
  td : ℕ
  ta : ℕ
  deriving DecidableEq, Repr

/-- What the segments have said. -/
structure Segments where
  quant : ℕ → Option (Fin 64 → ℕ)
  dc : ℕ → Option HuffTbl
  ac : ℕ → Option HuffTbl
  frame : Option FrameHdr
  restart_interval : ℕ

/-- Nothing yet. -/
def Segments.empty : Segments := ⟨fun _ => none, fun _ => none, fun _ => none, none, 0⟩

/-- Two bytes, the higher first. -/
def word16 (hi lo : UInt8) : ℕ := hi.toNat * 256 + lo.toNat

/-- The components of a frame. -/
def readFrameComps : List UInt8 → Option (List FrameComp)
  | [] => some []
  | id :: hv :: tq :: rest => do
    let comps ← readFrameComps rest
    return ⟨id.toNat, hv.toNat / 16, hv.toNat % 16, tq.toNat⟩ :: comps
  | _ => none

namespace Segments

variable (s : Segments)

/-- A table of quantisers, in zigzag order. -/
def readDqt : List UInt8 → Option Segments
  | [] => none
  | tq :: vals =>
    let quant_val := fun i : Fin 64 => (vals.getD (JPEG_NATURAL_ORDER.idxOf i.val) 0).toNat
    if tq.toNat < 4 ∧ vals.length = 64 then
      some { s with quant := update s.quant tq.toNat (some quant_val) }
    else none

/-- A Huffman table: the number of codes of each length, and the symbols. -/
def readDht : List UInt8 → Option Segments
  | [] => none
  | tc_th :: rest =>
    let counts := (rest.take 16).map UInt8.toNat
    let vals := (rest.drop 16).map UInt8.toNat
    let tbl : HuffTbl := ⟨0 :: counts, vals ++ List.replicate (256 - vals.length) 0⟩
    if counts.length = 16 ∧ vals.length = counts.sum ∧ counts.sum ≤ 256 then
      if tc_th.toNat < 4 then some { s with dc := update s.dc tc_th.toNat (some tbl) }
      else if 0x10 ≤ tc_th.toNat ∧ tc_th.toNat < 0x14 then
        some { s with ac := update s.ac (tc_th.toNat - 0x10) (some tbl) }
      else none
    else none

/-- The frame, of samples of eight bits. -/
def readSof : List UInt8 → Option Segments
  | p :: h1 :: h0 :: w1 :: w0 :: n :: rest => do
    let comps ← readFrameComps rest
    if p = 8 ∧ comps.length = n.toNat then
      some { s with frame := some ⟨word16 h1 h0, word16 w1 w0, comps⟩ }
    else none
  | _ => none

/-- The restart interval is set. -/
def readDri : List UInt8 → Option Segments
  | [hi, lo] => some { s with restart_interval := word16 hi lo }
  | _ => none

/-- A segment; those of applications are skipped. -/
def readSegment (m : UInt8) (payload : List UInt8) : Option Segments :=
  if m = M_DQT then s.readDqt payload
  else if m = M_DHT then s.readDht payload
  else if m = M_SOF0 then s.readSof payload
  else if m = M_DRI then s.readDri payload
  else if m.toNat / 16 = 0xe then some s
  else none

end Segments

/-- The components of a scan. -/
def readScanComps : List UInt8 → Option (List ScanComp)
  | [] => some []
  | id :: t :: rest => do
    let comps ← readScanComps rest
    return ⟨id.toNat, t.toNat / 16, t.toNat % 16⟩ :: comps
  | _ => none

/-- A scan of all coefficients. -/
def readSos : List UInt8 → Option (List ScanComp)
  | [] => none
  | n :: rest => do
    let comps ← readScanComps (rest.take (2 * n.toNat))
    if rest.drop (2 * n.toNat) = [0, 63, 0] then some comps else none

/-- The segments up to that of the scan, with the bytes after it. -/
def readSegments : ℕ → Segments → List UInt8 → Option (Segments × List ScanComp × List UInt8)
  | fuel + 1, s, ff :: m :: hi :: lo :: rest =>
    let n := word16 hi lo - 2
    if ff = 0xff ∧ 2 ≤ word16 hi lo ∧ n ≤ rest.length then
      if m = M_SOS then do
        let scan ← readSos (rest.take n)
        return (s, scan, rest.drop n)
      else do
        let s ← s.readSegment m (rest.take n)
        readSegments fuel s (rest.drop n)
    else none
  | _, _, _ => none

/-! ### The scan -/

/-- The bytes up to a marker, without the stuffed zeros, then the marker and what is after it. -/
def readEntropy : List UInt8 → Option (List UInt8 × UInt8 × List UInt8)
  | b :: c :: bs =>
    if b = 0xff then
      if c = 0 then (readEntropy bs).map fun r => (b :: r.1, r.2)
      else some ([], c, bs)
    else (readEntropy (c :: bs)).map fun r => (b :: r.1, r.2)
  | _ => none

/-- The MCUs of each restart interval, of `n` in all. -/
def intervalSizes (n restart_interval : ℕ) : List ℕ :=
  if restart_interval = 0 then [n]
  else List.replicate (n / restart_interval) restart_interval ++
    if n % restart_interval = 0 then [] else [n % restart_interval]

/-- The MCUs of the intervals from the `k`-th on.  Between two there is a restart marker, counted
modulo 8, and after the last one the end of the image. -/
def readIntervals (comps : List McuComp) :
    ℕ → List ℕ → List UInt8 → Option (List (List JBlock))
  | _, [], _ => none
  | k, n :: ns, bs => do
    let (bytes, m, bs) ← readEntropy bs
    let (mcus, pad) ← decodeMcus comps n (fun _ => 0) (byteBits bytes)
    if pad.length < 8 ∧ pad.all id then
      if ns = [] then
        if m = M_EOI ∧ bs = [] then some mcus else none
      else if m.toNat = M_RST0.toNat + k % 8 then do
        let rest ← readIntervals comps (k + 1) ns bs
        return mcus ++ rest
      else none
    else none

/-! ### A file -/

/-- Tables that are codes. -/
def baselineTables (dc_huff ac_huff : HuffTbl) : Option CompTables :=
  if h : (doSetDerivedTbl dc_huff 15).isSome ∧ (doSetDerivedTbl ac_huff 255).isSome then
    some ⟨dc_huff, ac_huff, 15, (doSetDerivedTbl dc_huff 15).get h.1,
      (doSetDerivedTbl ac_huff 255).get h.2, (Option.some_get h.1).symm, (Option.some_get h.2).symm⟩
  else none

/-- The components of the scan with their tables. -/
def components (s : Segments) : List FrameComp → List ScanComp → Option (List McuComp)
  | [], [] => some []
  | f :: fs, c :: cs => do
    let dc ← s.dc c.td
    let ac ← s.ac c.ta
    let tbls ← baselineTables dc ac
    let comps ← components s fs cs
    if f.id = c.id then some (⟨f.h, f.v, tbls⟩ :: comps) else none
  | _, _ => none

/-- The MCUs of a frame. -/
def FrameHdr.mcus (f : FrameHdr) : ℕ :=
  let row_size := 8 * (f.comps.map FrameComp.h).foldr max 1
  let col_size := 8 * (f.comps.map FrameComp.v).foldr max 1
  (f.width + row_size - 1) / row_size * ((f.height + col_size - 1) / col_size)

/-- What a file shows: the coefficients of every MCU, and for each component its quantisers. -/
structure Picture where
  frame : FrameHdr
  quant : List (Fin 64 → ℕ)
  mcus : List (List JBlock)

/-- A file. -/
def readFile : List UInt8 → Option Picture
  | ff :: m :: bs => do
    if ff = 0xff ∧ m = M_SOI then
      let (s, scan, bs) ← readSegments bs.length Segments.empty bs
      let frame ← s.frame
      let quant ← frame.comps.mapM fun c => s.quant c.tq
      let comps ← components s frame.comps scan
      let mcus ← readIntervals comps 0 (intervalSizes frame.mcus s.restart_interval) bs
      return ⟨frame, quant, mcus⟩
    else none
  | _ => none

/-! ### What is read of what was written -/

/-- A segment as it is written. -/
def segment (m : UInt8) (payload : List UInt8) : List UInt8 :=
  0xff :: m :: UInt8.ofNat ((payload.length + 2) / 256) :: UInt8.ofNat (payload.length + 2) ::
    payload

theorem word16_ofNat {n : ℕ} (h : n < 2 ^ 16) :
    word16 (UInt8.ofNat (n / 256)) (UInt8.ofNat n) = n := by
  rw [word16, UInt8.toNat_ofNat', UInt8.toNat_ofNat', Nat.mod_eq_of_lt (by omega)]
  omega

theorem readSegments_segment {s : Segments} {m : UInt8} {payload : List UInt8} (hm : m ≠ M_SOS)
    (hlt : payload.length + 2 < 2 ^ 16) (rest : List UInt8) (fuel : ℕ) :
    readSegments (fuel + 1) s (segment m payload ++ rest) =
      (s.readSegment m payload).bind fun s => readSegments fuel s rest := by
  rw [segment, List.cons_append, List.cons_append, List.cons_append, List.cons_append, readSegments,
    word16_ofNat hlt, Nat.add_sub_cancel, if_pos ⟨rfl, by omega, by simp⟩, if_neg hm,
    List.take_left, List.drop_left]
  rfl

/-- **Segments one after the other.** -/
theorem readSegments_flatMap {segs : List (UInt8 × List UInt8)}
    (h : ∀ g ∈ segs, g.1 ≠ M_SOS ∧ g.2.length + 2 < 2 ^ 16) (s : Segments) (rest : List UInt8)
    (fuel : ℕ) :
    readSegments (segs.length + fuel) s ((segs.flatMap fun g => segment g.1 g.2) ++ rest) =
      (segs.foldlM (fun s g => Segments.readSegment s g.1 g.2) s).bind fun s =>
        readSegments fuel s rest := by
  induction segs generalizing s with
  | nil =>
    rw [List.length_nil, Nat.zero_add]
    rfl
  | cons g segs ih =>
    obtain ⟨hm, hlt⟩ := h g List.mem_cons_self
    rw [List.length_cons, Nat.add_right_comm, List.flatMap_cons, List.append_assoc,
      readSegments_segment hm hlt, List.foldlM_cons]
    cases s.readSegment g.1 g.2 with
    | none => rfl
    | some s' => exact ih (fun g hg => h g (List.mem_cons_of_mem _ hg)) s'

theorem readSegments_sos {s : Segments} {payload : List UInt8} (hlt : payload.length + 2 < 2 ^ 16)
    (rest : List UInt8) (fuel : ℕ) :
    readSegments (fuel + 1) s (segment M_SOS payload ++ rest) =
      (readSos payload).map fun scan => (s, scan, rest) := by
  rw [segment, List.cons_append, List.cons_append, List.cons_append, List.cons_append, readSegments,
    word16_ofNat hlt, Nat.add_sub_cancel, if_pos ⟨rfl, by omega, by simp⟩, if_pos rfl,
    List.take_left, List.drop_left]
  cases readSos payload with
  | none => rfl
  | some scan => rfl

/-- **A stuffed interval is read up to its marker.** -/
theorem readEntropy_stuff (E : List UInt8) {m : UInt8} (hm : m ≠ 0) (rest : List UInt8) :
    readEntropy (stuff false E ++ 0xff :: m :: rest) = some (E, m, rest) := by
  induction E with
  | nil =>
    show readEntropy (0xff :: m :: rest) = _
    rw [readEntropy, if_pos rfl, if_neg hm]
  | cons b E ih =>
    have hcons : stuff false (b :: E) =
        (if b = 0xff then [b, 0] else [b]) ++ stuff false E := by
      show (if !false && b == 0xff then [b, 0] else [b]) ++ stuff false E = _
      simp only [Bool.not_false, Bool.true_and, beq_iff_eq]
    rw [hcons]
    split_ifs with hb
    · show readEntropy (b :: 0 :: (stuff false E ++ 0xff :: m :: rest)) = _
      rw [readEntropy, if_pos hb, if_pos rfl, ih]
      rfl
    · -- the byte after it may be the marker's
      obtain ⟨c, cs, hrest⟩ : ∃ c cs, stuff false E ++ 0xff :: m :: rest = c :: cs := by
        rcases stuff false E with _ | ⟨c, cs⟩
        · exact ⟨_, _, rfl⟩
        · exact ⟨_, _, rfl⟩
      show readEntropy (b :: (stuff false E ++ 0xff :: m :: rest)) = _
      rw [hrest] at ih ⊢
      rw [readEntropy, if_neg hb, ih]
      rfl

/-- A restart interval: its MCUs, and the bytes they were encoded in. -/
structure Interval (comps : List McuComp) where
  mcus : List (List JBlock)
  bytes : List UInt8
  read : ∃ n < 8, decodeMcus comps mcus.length (fun _ => 0) (byteBits bytes) =
    some (mcus, List.replicate n true)

instance {comps : List McuComp} : Inhabited (Interval comps) := ⟨⟨[], [], 0, by decide, rfl⟩⟩

/-- The intervals of a scan from the `k`-th on, with their markers. -/
def scanBytes {comps : List McuComp} : ℕ → List (Interval comps) → List UInt8
  | _, [] => []
  | _, [i] => stuff false i.bytes ++ [0xff, M_EOI]
  | k, i :: is => stuff false i.bytes ++ 0xff :: (M_RST0 + UInt8.ofNat k) :: scanBytes (k + 1) is

theorem scanBytes_range {comps : List McuComp} (i : ℕ → Interval comps) (k n : ℕ) :
    scanBytes k ((List.range' k (n + 1)).map i) = (List.range' k (n + 1)).flatMap fun t =>
      stuff false (i t).bytes ++ [0xff, if t = k + n then M_EOI else M_RST0 + UInt8.ofNat t] := by
  induction n generalizing k with
  | zero => simp [scanBytes]
  | succ n ih =>
    rw [List.range'_succ, List.map_cons, List.flatMap_cons, if_neg (by omega),
      show k + (n + 1) = k + 1 + n by omega, ← ih, List.append_assoc]
    rw [List.range'_succ, List.map_cons, scanBytes]
    · rfl
    · exact List.cons_ne_nil _ _

/-- **The intervals of a scan** are read back, if there are at most eight restarts. -/
theorem readIntervals_scan {comps : List McuComp} {k : ℕ} {is : List (Interval comps)}
    (h0 : is ≠ []) (hk : k + is.length ≤ 9) :
    readIntervals comps k (is.map fun i => i.mcus.length) (scanBytes k is) =
      some (is.flatMap Interval.mcus) := by
  induction is generalizing k with
  | nil => exact absurd rfl h0
  | cons i is ih =>
    obtain ⟨n, hn, hread⟩ := i.read
    have hpad : (List.replicate n true).length < 8 ∧ (List.replicate n true).all id := by
      rw [List.length_replicate]
      exact ⟨hn, by simp⟩
    rw [List.map_cons, List.flatMap_cons]
    rcases is with _ | ⟨i', is⟩
    · rw [scanBytes, readIntervals, readEntropy_stuff _ (by decide)]
      simp only [Option.bind_eq_bind, Option.bind_some, hread, if_pos hpad, List.map_nil,
        List.flatMap_nil, List.append_nil, and_self, if_true]
    · simp only [List.length_cons] at hk
      have hmark : (M_RST0 + UInt8.ofNat k).toNat = M_RST0.toNat + k % 8 := by
        rw [UInt8.toNat_add, UInt8.toNat_ofNat', M_RST0]
        simp only [UInt8.reduceToNat]
        omega
      have hne : M_RST0 + UInt8.ofNat k ≠ 0 := by
        intro h
        have := congrArg UInt8.toNat h
        rw [hmark, M_RST0] at this
        simp at this
      rw [scanBytes, readIntervals, readEntropy_stuff _ hne]
      · simp only [Option.bind_eq_bind, Option.bind_some, hread, if_pos hpad, List.map_cons]
        rw [if_neg (List.cons_ne_nil _ _), if_pos hmark]
        have hrest :=
          ih (List.cons_ne_nil i' is) (k := k + 1) (by simp only [List.length_cons]; omega)
        rw [List.map_cons] at hrest
        rw [hrest]
        rfl
      · exact List.cons_ne_nil i' is

end RemotePlay.Jpeg
