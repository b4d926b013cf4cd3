import RemotePlay.Jpeg.Header
import RemotePlay.Jpeg.Cover
import RemotePlay.Work.SizeCount

/-! # The file of a frame

Without the reliable stream the threads of a JPEG frame write one file: the first begins it with the
headers, every one encodes the MCU rows it was handed as a restart interval, and each puts the
marker that ends its interval.  Whatever shares the rows were handed out in, a decoder reads the
coefficients of the whole frame from the file (`readFile_encodeFrame`), unless a block has a
coefficient without a code. -/

namespace RemotePlay.Jpeg

open RemotePlay.Lib RemotePlay.Encode RemotePlay.Work Bits Function

/-! ### The tables -/

/-- The standard tables as the headers have them. -/
def dcWire (t : TblNo) : WireTbl where
  counts := t.bitsDc.drop 1
  vals := t.valDc
  length_counts := by cases t <;> rfl
  sum_counts := by cases t <;> rfl
  length_vals := by cases t <;> decide +kernel
  counts_lt := by cases t <;> decide +kernel
  vals_lt := by cases t <;> decide +kernel

/-- The AC table as it is sent. -/
def acWire (t : TblNo) : WireTbl where
  counts := t.bitsAc.drop 1
  vals := t.valAc
  length_counts := by cases t <;> rfl
  sum_counts := by cases t <;> decide +kernel
  length_vals := by cases t <;> decide +kernel
  counts_lt := by cases t <;> decide +kernel
  vals_lt := by cases t <;> decide +kernel

theorem dcHuffTbl_wire (t : TblNo) : dcHuffTbl false t = some (dcWire t).tbl := by
  cases t <;> decide +kernel

theorem acHuffTbl_wire (t : TblNo) : acHuffTbl false t = some (acWire t).tbl := by
  cases t <;> decide +kernel

theorem plain_isSome (t : TblNo) : (doSetDerivedTbl (dcWire t).tbl 15).isSome ∧
    (doSetDerivedTbl (acWire t).tbl 255).isSome := by
  obtain ⟨dc, hdc, -⟩ := dcDerivedTbl_spec false t
  obtain ⟨ac, hac, -⟩ := acDerivedTbl_spec false t
  rw [dcDerivedTbl, dcHuffTbl_wire] at hdc
  rw [acDerivedTbl, acHuffTbl_wire] at hac
  exact ⟨Option.isSome_of_eq_some hdc, Option.isSome_of_eq_some hac⟩

/-- `entropy_tbls`. -/
def plainTables (t : TblNo) : CompTables where
  dc_huff := (dcWire t).tbl
  ac_huff := (acWire t).tbl
  dc_max := 15
  dc_derived := (doSetDerivedTbl (dcWire t).tbl 15).get (plain_isSome t).1
  ac_derived := (doSetDerivedTbl (acWire t).tbl 255).get (plain_isSome t).2
  dc_eq := (Option.some_get _).symm
  ac_eq := (Option.some_get _).symm

theorem baselineTables_wire (t : TblNo) :
    baselineTables (dcWire t).tbl (acWire t).tbl = some (plainTables t) :=
  dif_pos (plain_isSome t)

/-! ### Encoding -/

/-- `comp_infos` as `encode_mcu` reads it. -/
def mcuComps (ss : ChromaSs) : List McuComp := (List.finRange 3).map fun ci =>
  ⟨(compInfos ss ci).h_samp_factor, (compInfos ss ci).v_samp_factor,
    plainTables (compInfos ss ci).quant_tbl_no⟩

/-- `downsample_screen_height`. -/
def screenHeight (j : JpegScreen) : ℕ := if j.downsample = .quarter then j.height / 2 else j.height

theorem headerComps_small (ss : ChromaSs) (i : Fin MAX_COMPONENTS) : (headerComps ss i).Small := by
  constructor <;> revert i <;> cases ss <;> decide

section

variable (P : PacketDataSize) (rel_stream : Bool) (q : Quality) (j : JpegScreen)

/-- What the headers of a screen have. -/
def headerData (core_count : CoreCount) (v_adjusted : ℕ) : HeaderData where
  core_count := core_count
  quant_val := quantVal q
  dc_huff := dcWire
  ac_huff := acWire
  height := screenHeight j
  width := j.screenWidth
  infos := headerComps j.ss
  restart_interval := j.restartInterval v_adjusted
  quant_lt t i := Nat.lt_succ_of_le (quantVal_bounds q t i).2
  height_lt := by
    have := j.height_le
    unfold screenHeight
    split_ifs <;> omega
  width_lt := by
    unfold JpegScreen.screenWidth
    cases j.downsample <;> decide
  infos_small := headerComps_small j.ss
  restart_lt := Nat.mod_lt _ (by decide)

/-- `compress` in plain mode. -/
def compress (win : Planes) (mcu_col_num : ℕ) : Option (List JBlock) :=
  (mcuPlaces j.ss mcu_col_num).mapM fun b =>
    plainDct q (compInfos j.ss b.ci).quant_tbl_no (win b.ci b.ypos (b.xpos j.ss))

/-- `do_process` in plain mode. -/
def doProcess (win : Planes) (w : McuWorker) : Option McuWorker :=
  (List.range j.mcusPerRow).foldlM (fun w mcu_col_num => do
    let mcu ← compress q j win mcu_col_num
    encodeMcu P rel_stream (mcuComps j.ss) w mcu) w

/-- `encode` in plain mode, from the planes that the rows of the slice are converted to. -/
def encode (d : HeaderData) (rows : List Planes) (thread_index : ℕ) (dst : WorkerDst) :
    Option WorkerDst := do
  let dst := if !rel_stream ∧ thread_index = 0 then writeHeaders P d dst else dst
  let w := resetMcu ⟨BitEncoderState.reset, fun _ => 0, dst⟩
  let w ← rows.foldlM (fun w win => doProcess P rel_stream q j win w) w
  let w ← flushMcu P rel_stream w
  let dst :=
    if !rel_stream then
      if thread_index = d.core_count.get - 1 then writeTrailer P w.dst
      else writeRst P thread_index w.dst
    else w.dst
  return dst.term P

/-- The rows of a slice of the frame. -/
def sliceRows (p : RowPartition j.mcuRows) (win : ℕ → Planes) (t : ℕ) : List Planes :=
  (List.range (j.encodedRows (j.sliceLines p t))).map fun i => win (p.iStart t + i)

/-- What the threads send of a frame. -/
def encodeFrame (p : RowPartition j.mcuRows) (win : ℕ → Planes) : Option (List (List UInt8)) :=
  (List.range p.core_count.get).mapM fun t =>
    (encode P rel_stream q j (headerData q j p.core_count p.v_adjusted) (sliceRows j p win t) t
      ⟨0, P.val, [], [], []⟩).map fun dst => dst.sent.flatten

end

/-! ### The coefficients -/

section

variable (q : Quality) (j : JpegScreen)

/-- The coefficients of an MCU. -/
def mcuOf (win : Planes) (mcu_col_num : ℕ) : List JBlock :=
  (mcuPlaces j.ss mcu_col_num).map fun b =>
    quantBlock q (compInfos j.ss b.ci).quant_tbl_no 0 (win b.ci b.ypos (b.xpos j.ss))

/-- Those of rows. -/
def rowMcus (rows : List Planes) : List (List JBlock) :=
  rows.flatMap fun win => (List.range j.mcusPerRow).map (mcuOf q j win)

theorem compress_eq (win : Planes) (mcu_col_num : ℕ) :
    compress q j win mcu_col_num = some (mcuOf q j win mcu_col_num) := by
  simp only [compress, plainDct_eq]
  exact List.mapM_pure

/-- **The rows are encoded MCU after MCU.** -/
theorem foldlM_doProcess (P : PacketDataSize) (rel_stream : Bool) (rows : List Planes)
    (w : McuWorker) : rows.foldlM (fun w win => doProcess P rel_stream q j win w) w =
      (rowMcus q j rows).foldlM (encodeMcu P rel_stream (mcuComps j.ss)) w := by
  rw [rowMcus, foldlM_flatMap]
  simp only [doProcess, compress_eq, Option.bind_eq_bind, Option.bind_some, List.foldlM_map]

theorem layout_mcuComps (ss : ChromaSs) (mcu_col_num : ℕ) : layout (mcuComps ss) =
    (mcuPlaces ss mcu_col_num).map fun b => (⟨(compInfos ss b.ci).h_samp_factor,
      (compInfos ss b.ci).v_samp_factor, plainTables (compInfos ss b.ci).quant_tbl_no⟩,
      b.ci.val) := by
  cases ss <;> rfl

/-- No block of the row is one whose coefficient 7 has no code. -/
def NoPeak (win : Planes) : Prop := ∀ b ∈ rowPlaces j.ss j.mcusPerRow,
  ¬((q.val = 100 ∨ q.val = 99 ∧ (compInfos j.ss b.ci).quant_tbl_no = .luminance) ∧
    PeakBlock (sampleDiffs (win b.ci b.ypos (b.xpos j.ss))))

end

/-- **A plain block has codes and is in range**, after any other. -/
theorem coded_inRange {q : Quality} {t : TblNo} {w : Window} {last : ℤ}
    (hpeak : ¬((q.val = 100 ∨ q.val = 99 ∧ t = .luminance) ∧ PeakBlock (sampleDiffs w)))
    (hlast : Within (-1024, 1016) last) :
    Coded (plainTables t) (quantBlock q t 0 w) last ∧
      InRange (plainTables t) (quantBlock q t 0 w) last := by
  have hdc : (quantBlock q t 0 w 0 - last).natAbs < 2 ^ 11 := by
    have h := quantBlock_dc q t 0 w
    simp only [Within] at h hlast
    omega
  have hac : ∀ i, i ≠ 0 → (quantBlock q t 0 w i).natAbs < 2 ^ 10 := fun i hi => by
    by_cases h7 : i = 7
    · exact h7 ▸ quantBlock_seven.mpr hpeak
    · exact quantBlock_ac hi h7
  obtain ⟨dc, ac, hdct, hact, hdcs, hacs⟩ := @hasCodes_of_bits false t _ _ hdc hac
  rw [dcDerivedTbl, dcHuffTbl_wire, Option.bind_eq_bind, Option.bind_some] at hdct
  rw [acDerivedTbl, acHuffTbl_wire, Option.bind_eq_bind, Option.bind_some] at hact
  obtain rfl : (plainTables t).dc_derived = dc :=
    Option.some.inj ((plainTables t).dc_eq.symm.trans hdct)
  obtain rfl : (plainTables t).ac_derived = ac :=
    Option.some.inj ((plainTables t).ac_eq.symm.trans hact)
  refine ⟨⟨hdcs, hacs⟩, ⟨?_, fun i hi => (nbits_le (hac i hi)).trans (by decide)⟩⟩
  have hsize := ehufsi_le (plainTables t).dc_eq (dcItem (quantBlock q t 0 w 0) last).sym
  have hbits : (dcItem (quantBlock q t 0 w 0) last).nbits ≤ 11 := nbits_le hdc
  omega

theorem along_of_forall {Q : CompTables → JBlock → ℤ → Prop} {L : ℤ → Prop}
    {qs : List ((McuComp × ℕ) × JBlock)} (hL : ∀ x ∈ qs, L (x.2 0))
    (hQ : ∀ x ∈ qs, ∀ v, L v → Q x.1.1.tbls x.2 v) {last : ℕ → ℤ} (hlast : ∀ ci, L (last ci)) :
    Along Q last qs := by
  induction qs generalizing last with
  | nil => trivial
  | cons x qs ih =>
    refine ⟨hQ x List.mem_cons_self _ (hlast _), ih (fun y hy => hL y (List.mem_cons_of_mem _ hy))
      (fun y hy => hQ y (List.mem_cons_of_mem _ hy)) fun ci => ?_⟩
    rw [nextDc, Function.update_apply]
    split_ifs
    · exact hL x List.mem_cons_self
    · exact hlast ci

section

variable {q : Quality} {j : JpegScreen} {rows : List Planes}

theorem length_rowMcus : (rowMcus q j rows).length = rows.length * j.mcusPerRow := by
  rw [rowMcus, List.length_flatMap]
  simp

theorem length_mcu : ∀ mcu ∈ rowMcus q j rows, mcu.length = (layout (mcuComps j.ss)).length := by
  intro mcu hmcu
  obtain ⟨win, -, hmcu⟩ := List.mem_flatMap.mp hmcu
  obtain ⟨m, -, rfl⟩ := List.mem_map.mp hmcu
  rw [mcuOf, layout_mcuComps j.ss m, List.length_map, List.length_map]

theorem mem_sequence {x : (McuComp × ℕ) × JBlock}
    (hx : x ∈ sequence (mcuComps j.ss) (rowMcus q j rows)) :
    ∃ win ∈ rows, ∃ b ∈ rowPlaces j.ss j.mcusPerRow,
      x.1.1.tbls = plainTables (compInfos j.ss b.ci).quant_tbl_no ∧
      x.2 = quantBlock q (compInfos j.ss b.ci).quant_tbl_no 0 (win b.ci b.ypos (b.xpos j.ss)) := by
  obtain ⟨mcu, hmcu, hx⟩ := List.mem_flatMap.mp hx
  obtain ⟨win, hwin, hmcu⟩ := List.mem_flatMap.mp hmcu
  obtain ⟨m, hm, rfl⟩ := List.mem_map.mp hmcu
  rw [layout_mcuComps j.ss m, mcuOf, List.zip_map'] at hx
  obtain ⟨b, hb, rfl⟩ := List.mem_map.mp hx
  exact ⟨win, hwin, b, List.mem_flatMap.mpr ⟨m, hm, hb⟩, rfl, rfl⟩

theorem along_rowMcus (hpeak : ∀ win ∈ rows, NoPeak q j win) :
    Along Coded (fun _ => 0) (sequence (mcuComps j.ss) (rowMcus q j rows)) ∧
      Along InRange (fun _ => 0) (sequence (mcuComps j.ss) (rowMcus q j rows)) := by
  have hL : ∀ x ∈ sequence (mcuComps j.ss) (rowMcus q j rows), Within (-1024, 1016) (x.2 0) := by
    intro x hx
    obtain ⟨win, -, b, -, -, hblock⟩ := mem_sequence hx
    rw [hblock]
    exact quantBlock_dc q _ 0 _
  have hQ : ∀ x ∈ sequence (mcuComps j.ss) (rowMcus q j rows), ∀ v, Within (-1024, 1016) v →
      Coded x.1.1.tbls x.2 v ∧ InRange x.1.1.tbls x.2 v := by
    intro x hx v hv
    obtain ⟨win, hwin, b, hb, htbls, hblock⟩ := mem_sequence hx
    rw [htbls, hblock]
    exact coded_inRange (hpeak win hwin b hb) hv
  have h0 : ℕ → Within (-1024, 1016) 0 := fun _ => by decide
  exact ⟨along_of_forall hL (fun x hx v hv => (hQ x hx v hv).1) h0,
    along_of_forall hL (fun x hx v hv => (hQ x hx v hv).2) h0⟩

/-- **What a thread sends**: the headers if it is the first, its interval, and a marker. -/
theorem encode_eq (P : PacketDataSize) (d : HeaderData) (hpeak : ∀ win ∈ rows, NoPeak q j win)
    (t : ℕ) : ∃ dst, ∃ i : Interval (mcuComps j.ss),
      encode P false q j d rows t ⟨0, P.val, [], [], []⟩ = some dst ∧
      i.mcus = rowMcus q j rows ∧
      dst.sent.flatten = (if t = 0 then headerBytes d else []) ++ stuff false i.bytes ++
        [0xff, if t = d.core_count.get - 1 then M_EOI else M_RST0 + UInt8.ofNat t] := by
  obtain ⟨hc, hr⟩ := along_rowMcus hpeak
  -- what is there before the interval
  obtain ⟨dst, hdst, hok, hstream⟩ : ∃ dst : WorkerDst,
      (if !false ∧ t = 0 then writeHeaders P d ⟨0, P.val, [], [], []⟩ else ⟨0, P.val, [], [], []⟩) =
        dst ∧ dst.Ok P ∧ dst.stream = if t = 0 then headerBytes d else [] := by
    have hstart : WorkerDst.Ok P ⟨0, P.val, [], [], []⟩ :=
      ⟨Nat.zero_add _, fun _ h => absurd h List.not_mem_nil⟩
    refine ⟨_, rfl, ?_⟩
    by_cases h0 : t = 0
    · rw [if_pos ⟨rfl, h0⟩, if_pos h0, writeHeaders_eq]
      exact ⟨(EncodeBuffer.foldl_writeByte _ _).1 hstart, (EncodeBuffer.foldl_writeByte _ _).2⟩
    · rw [if_neg fun h => h0 h.2, if_neg h0]
      exact ⟨hstart, rfl⟩
  obtain ⟨w, E, hw, hout, hbits⟩ := @encodeInterval_eq P false (mcuComps j.ss) (rowMcus q j rows)
    length_mcu hc (hr.imp fun _ _ _ h => h.puttable) ⟨BitEncoderState.reset, fun _ => 0, dst⟩ hok
  obtain ⟨n, hn, hread⟩ : ∃ n < 8, decodeMcus (mcuComps j.ss) (rowMcus q j rows).length (fun _ => 0)
      (byteBits E) = some (rowMcus q j rows, List.replicate n true) := by
    rw [hbits, padOnes]
    exact ⟨_, Nat.mod_lt _ (by decide), decodeMcus_encodedBits length_mcu hc hr _⟩
  obtain ⟨w₁, hw₁, hflush⟩ := Option.bind_eq_some_iff.mp hw
  have hterm : ∀ d : WorkerDst, (d.term P).sent.flatten = d.stream := fun d => by
    rw [WorkerDst.term, List.flatten_append, List.flatten_singleton, WorkerDst.stream]
  refine ⟨WorkerDst.term P (if t = d.core_count.get - 1 then writeTrailer P w.dst
    else writeRst P t w.dst), ⟨rowMcus q j rows, E, n, hn, hread⟩, ?_, rfl, ?_⟩
  · rw [encode]
    simp only [hdst, foldlM_doProcess, hw₁, hflush, Option.bind_eq_bind, Option.bind_some]
    rfl
  · rw [hterm, ← hstream, ← hout]
    split_ifs
    · rw [writeTrailer, writeMarker, WorkerDst.stream_writeByte, WorkerDst.stream_writeByte,
        List.append_assoc]
      rfl
    · rw [writeRst, writeMarker, WorkerDst.stream_writeByte, WorkerDst.stream_writeByte,
        List.append_assoc]
      rfl

end

/-! ### The frame -/

theorem intervalSizes_eq {a b : ℕ} (hb : 0 < b) (hba : b ≤ a) (k : ℕ) :
    intervalSizes (a * k + b) a = List.replicate k a ++ [b] := by
  rw [intervalSizes, if_neg (by omega)]
  rcases hba.lt_or_eq with hlt | rfl
  · rw [Nat.mul_add_div (by omega), Nat.div_eq_of_lt hlt, Nat.add_zero, Nat.mul_add_mod,
      Nat.mod_eq_of_lt hlt, if_neg (by omega)]
  · rw [← Nat.mul_succ, Nat.mul_div_cancel_left _ hb, Nat.mul_mod_right, if_pos rfl,
      List.replicate_succ', List.append_nil]

/-- The frame as the file has it. -/
def frameHdr (j : JpegScreen) : FrameHdr :=
  ⟨screenHeight j, j.screenWidth, (List.finRange MAX_COMPONENTS).map fun i =>
    ⟨(headerComps j.ss i).component_id, (headerComps j.ss i).h_samp_factor,
      (headerComps j.ss i).v_samp_factor, (headerComps j.ss i).quant_tbl_no⟩⟩

theorem frameHdr_mcus (j : JpegScreen) : (frameHdr j).mcus = j.mcusPerRow * j.mcuRows := by
  have hrow : 8 * ((frameHdr j).comps.map FrameComp.h).foldr max 1 = j.mcuRowSize := by
    unfold frameHdr JpegScreen.mcuRowSize
    cases j.ss <;> rfl
  have hcol : 8 * ((frameHdr j).comps.map FrameComp.v).foldr max 1 = j.mcuColSize := by
    unfold frameHdr JpegScreen.mcuColSize
    cases j.ss <;> rfl
  simp only [FrameHdr.mcus, hrow, hcol]
  rfl

theorem headerComps_eq (ss : ChromaSs) (i : Fin MAX_COMPONENTS) :
    (headerComps ss i).h_samp_factor = (compInfos ss i).h_samp_factor ∧
    (headerComps ss i).v_samp_factor = (compInfos ss i).v_samp_factor ∧
    (headerComps ss i).quant_tbl_no = (compInfos ss i).quant_tbl_no.index ∧
    (headerComps ss i).dc_tbl_no = (compInfos ss i).quant_tbl_no.index ∧
    (headerComps ss i).ac_tbl_no = (compInfos ss i).quant_tbl_no.index := by
  revert i
  cases ss <;> decide

theorem components_eq (q : Quality) (j : JpegScreen) (core_count : CoreCount) (v : ℕ) :
    components (headerSegments (headerData q j core_count v)) (frameHdr j).comps
      (headerScan (headerData q j core_count v)) = some (mcuComps j.ss) := by
  have hdc : ∀ t : TblNo, (headerSegments (headerData q j core_count v)).dc t.index =
      some (dcWire t).tbl := fun t => by cases t <;> rfl
  have hac : ∀ t : TblNo, (headerSegments (headerData q j core_count v)).ac t.index =
      some (acWire t).tbl := fun t => by cases t <;> rfl
  have hcomps : ∀ is : List (Fin MAX_COMPONENTS),
      components (headerSegments (headerData q j core_count v))
      (is.map fun i => ⟨(headerComps j.ss i).component_id, (headerComps j.ss i).h_samp_factor,
        (headerComps j.ss i).v_samp_factor, (headerComps j.ss i).quant_tbl_no⟩)
      (is.map fun i => ⟨(headerComps j.ss i).component_id, (headerComps j.ss i).dc_tbl_no,
        (headerComps j.ss i).ac_tbl_no⟩) =
        some (is.map fun ci => ⟨(compInfos j.ss ci).h_samp_factor,
          (compInfos j.ss ci).v_samp_factor, plainTables (compInfos j.ss ci).quant_tbl_no⟩) := by
    intro is
    induction is with
    | nil => rfl
    | cons i is ih =>
      obtain ⟨hh, hv, -, htd, hta⟩ := headerComps_eq j.ss i
      simp only [List.map_cons, components, ih, htd, hta, hdc, hac, baselineTables_wire, hh, hv,
        Option.bind_eq_bind, Option.bind_some, if_true]
  exact hcomps (List.finRange MAX_COMPONENTS)

theorem quant_eq (q : Quality) (j : JpegScreen) (core_count : CoreCount) (v : ℕ) :
    (frameHdr j).comps.mapM (fun c => (headerSegments (headerData q j core_count v)).quant c.tq) =
      some ((List.finRange 3).map fun ci => quantVal q (compInfos j.ss ci).quant_tbl_no) := by
  have hq : ∀ t : TblNo, (headerSegments (headerData q j core_count v)).quant t.index =
      some (quantVal q t) := fun t => by cases t <;> rfl
  have htq : ∀ i, (headerSegments (headerData q j core_count v)).quant
      (headerComps j.ss i).quant_tbl_no = some (quantVal q (compInfos j.ss i).quant_tbl_no) :=
    fun i => by rw [(headerComps_eq j.ss i).2.2.1, hq]
  rw [frameHdr, List.mapM_map]
  simp only [Function.comp_def, htq]
  exact List.mapM_pure

section

variable {j : JpegScreen} {core_count : CoreCount} {v v_last : ℕ}
  (h : RowsOk core_count j.mcuRows v v_last)

include h

theorem intervalSizes_frame : intervalSizes (frameHdr j).mcus
    (if core_count.get > 1 then j.restartInterval v else 0) =
      (List.range core_count.get).map fun t => h.partition.iCount t * j.mcusPerRow := by
  have hpos : 0 < j.mcusPerRow := by
    unfold JpegScreen.mcusPerRow JpegScreen.screenWidth JpegScreen.mcuRowSize
    cases j.downsample <;> cases j.ss <;> decide
  obtain ⟨k, hk⟩ : ∃ k, core_count.get = k + 1 := ⟨core_count.get - 1, by
    have := core_count.get_pos
    omega⟩
  have htotal := h.total
  rw [hk, Nat.add_sub_cancel] at htotal
  have hlast : ∀ t, t < k → h.partition.iCount t = v := fun t ht => if_neg (by
    show t ≠ core_count.get - 1
    omega)
  have hend : h.partition.iCount k = v_last := if_pos (by
    show k = core_count.get - 1
    omega)
  have hmcus : j.mcusPerRow * j.mcuRows = v * j.mcusPerRow * k + v_last * j.mcusPerRow := by
    rw [← htotal]
    ring
  rw [frameHdr_mcus, hk, List.range_succ, List.map_append, List.map_singleton, hend, hmcus]
  rcases Nat.eq_zero_or_pos k with rfl | h0
  · rw [if_neg (by omega), intervalSizes, if_pos rfl, Nat.mul_zero, Nat.zero_add]
    rfl
  · have hle : v ≤ j.mcuRows := by
      have := Nat.mul_le_mul_left v h0
      omega
    have hsmall : v * j.mcusPerRow ≤ 100 * 30 :=
      Nat.mul_le_mul (hle.trans j.mcuRows_le) j.mcusPerRow_le
    rw [if_pos (by omega), JpegScreen.restartInterval, Nat.mod_eq_of_lt (by omega),
      intervalSizes_eq (Nat.mul_pos h.last_pos hpos) (Nat.mul_le_mul_right _ h.last_le)]
    refine congrArg (· ++ [v_last * j.mcusPerRow]) ?_
    rw [List.map_congr_left (g := fun _ => v * j.mcusPerRow) fun t ht => by
      rw [hlast t (List.mem_range.mp ht)]]
    rw [List.map_const', List.length_range]

theorem flatMap_sliceRows (win : ℕ → Planes) :
    (List.range core_count.get).flatMap (sliceRows j h.partition win) =
      (List.range j.mcuRows).map win := by
  have hpart : ∀ n ≤ core_count.get - 1, (List.range n).flatMap (sliceRows j h.partition win) =
      (List.range (h.partition.iStart n)).map win := by
    intro n hn
    induction n with
    | zero => rfl
    | succ n ih =>
      have hstart := h.partition.iStart_succ (t := n) (by
        show n + 1 < core_count.get
        omega)
      rw [List.range_succ, List.flatMap_append, ih (by omega), List.flatMap_singleton, sliceRows,
        j.encodedRows_sliceLines h.partition (by show n < core_count.get; omega), hstart,
        List.range_add, List.map_append, List.map_map]
      rfl
  have hget := core_count.get_pos
  have hlast := h.partition.iStart_last
  obtain ⟨k, hk⟩ : ∃ k, core_count.get = k + 1 := ⟨core_count.get - 1, by omega⟩
  have hpk : h.partition.core_count.get - 1 = k := by
    show core_count.get - 1 = k
    omega
  rw [hpk] at hlast
  have hrows : List.range j.mcuRows = List.range (h.partition.iStart k) ++
      (List.range (h.partition.iCount k)).map (h.partition.iStart k + ·) := by
    conv_lhs => rw [← hlast, List.range_add]
  rw [hk, List.range_succ, List.flatMap_append, hpart k (by omega), List.flatMap_singleton,
    sliceRows, j.encodedRows_sliceLines h.partition (by show k < core_count.get; omega), hrows,
    List.map_append, List.map_map]
  rfl

theorem exists_interval (P : PacketDataSize) (q : Quality) {win : ℕ → Planes}
    (hpeak : ∀ r < j.mcuRows, NoPeak q j (win r)) {t : ℕ} (ht : t < core_count.get) :
    ∃ out, ∃ i : Interval (mcuComps j.ss),
      (encode P false q j (headerData q j core_count v) (sliceRows j h.partition win t) t
        ⟨0, P.val, [], [], []⟩).map (fun dst => dst.sent.flatten) = some out ∧
      i.mcus = rowMcus q j (sliceRows j h.partition win t) ∧
      out = (if t = 0 then headerBytes (headerData q j core_count v) else []) ++
        stuff false i.bytes ++
        [0xff, if t = core_count.get - 1 then M_EOI else M_RST0 + UInt8.ofNat t] := by
  have hrows : ∀ w ∈ sliceRows j h.partition win t, NoPeak q j w := by
    intro w hw
    obtain ⟨i, hi, rfl⟩ := List.mem_map.mp hw
    rw [List.mem_range, j.encodedRows_sliceLines h.partition ht] at hi
    have := h.partition.iStart_add_iCount_le ht
    exact hpeak _ (by omega)
  obtain ⟨dst, i, hdst, hmcus, hout⟩ := encode_eq P (headerData q j core_count v) hrows t
  exact ⟨_, i, by rw [hdst]; rfl, hmcus, hout⟩

end

theorem flatten_sent {core_count : CoreCount} {comps : List McuComp} {hdr : List UInt8}
    {out : ℕ → List UInt8} {i : ℕ → Interval comps}
    (hbytes : ∀ t < core_count.get, out t = (if t = 0 then hdr else []) ++
      stuff false (i t).bytes ++
        [0xff, if t = core_count.get - 1 then M_EOI else M_RST0 + UInt8.ofNat t]) :
    ((List.range core_count.get).map out).flatten =
      hdr ++ scanBytes 0 ((List.range core_count.get).map i) := by
  have hget := core_count.get_pos
  obtain ⟨k, hk⟩ : ∃ k, core_count.get = k + 1 := ⟨core_count.get - 1, by omega⟩
  rw [← List.flatMap_def, hk, List.range_eq_range', scanBytes_range, List.range'_succ,
    List.flatMap_cons, List.flatMap_cons, hbytes 0 hget, if_pos rfl, List.append_assoc,
    List.append_assoc]
  have hrest : (List.range' (0 + 1) k).flatMap out = (List.range' (0 + 1) k).flatMap fun t =>
      stuff false (i t).bytes ++ [0xff, if t = 0 + k then M_EOI else M_RST0 + UInt8.ofNat t] :=
    List.flatMap_congr fun t ht => by
      rw [List.mem_range'_1] at ht
      rw [hbytes t (by omega), if_neg (by omega), hk, Nat.add_sub_cancel, Nat.zero_add,
        List.nil_append]
  rw [hrest, hk, Nat.add_sub_cancel, Nat.zero_add]
  simp only [List.append_assoc]

theorem mapM_eq_some {α β : Type} {f : α → Option β} {g : α → β} {l : List α}
    (h : ∀ x ∈ l, f x = some (g x)) : l.mapM f = some (l.map g) := by
  induction l with
  | nil => rfl
  | cons x l ih =>
    rw [List.mapM_cons, h x List.mem_cons_self, ih fun y hy => h y (List.mem_cons_of_mem _ hy)]
    rfl

/-- **The file of a frame is read back**: however the rows were shared out, a decoder finds the size
of the screen, the quantisers of the quality and the coefficients of every MCU in order, if no block
has a coefficient without a code. -/
theorem readFile_encodeFrame (P : PacketDataSize) (q : Quality) (j : JpegScreen)
    {core_count : CoreCount} {v v_last : ℕ} (h : RowsOk core_count j.mcuRows v v_last)
    (win : ℕ → Planes) (hpeak : ∀ r < j.mcuRows, NoPeak q j (win r)) :
    ∃ outs, encodeFrame P false q j h.partition win = some outs ∧
      readFile outs.flatten = some ⟨frameHdr j,
        (List.finRange 3).map fun ci => quantVal q (compInfos j.ss ci).quant_tbl_no,
        (List.range j.mcuRows).flatMap fun r =>
          (List.range j.mcusPerRow).map (mcuOf q j (win r))⟩ := by
  have hget := core_count.get_pos
  choose! out i hout hmcus hbytes using fun t => @exists_interval _ _ _ _ h P q win hpeak t
  have hmem : ∀ t ∈ List.range core_count.get, t < core_count.get := fun t => List.mem_range.mp
  refine ⟨(List.range core_count.get).map out, mapM_eq_some fun t ht => hout t (hmem t ht), ?_⟩
  obtain ⟨k, hk⟩ : ∃ k, core_count.get = k + 1 := ⟨core_count.get - 1, by omega⟩
  have hmcus' : ((List.range core_count.get).map i).flatMap Interval.mcus =
      (List.range j.mcuRows).flatMap fun r =>
        (List.range j.mcusPerRow).map (mcuOf q j (win r)) := by
    calc ((List.range core_count.get).map i).flatMap Interval.mcus
        = (List.range core_count.get).flatMap fun t => (i t).mcus := List.flatMap_map ..
      _ = (List.range core_count.get).flatMap fun t =>
            rowMcus q j (sliceRows j h.partition win t) :=
          List.flatMap_congr fun t ht => hmcus t (hmem t ht)
      _ = rowMcus q j ((List.range core_count.get).flatMap (sliceRows j h.partition win)) :=
          List.flatMap_assoc.symm
      _ = rowMcus q j ((List.range j.mcuRows).map win) := by rw [flatMap_sliceRows h]
      _ = _ := List.flatMap_map ..
  have hsizes : ((List.range core_count.get).map i).map (fun i => i.mcus.length) =
      intervalSizes (frameHdr j).mcus (if core_count.get > 1 then j.restartInterval v else 0) := by
    rw [intervalSizes_frame h, List.map_map]
    refine List.map_congr_left fun t ht => ?_
    show (i t).mcus.length = _
    rw [hmcus t (hmem t ht), length_rowMcus, sliceRows, List.length_map, List.length_range,
      j.encodedRows_sliceLines h.partition (hmem t ht)]
  have hscan := @readIntervals_scan _ 0 ((List.range core_count.get).map i)
    (by rw [hk, List.range_succ_eq_map]; exact List.cons_ne_nil _ _) (by
      have := core_count.get_le
      have hmax : RP_CORE_COUNT_MAX = 3 := rfl
      rw [List.length_map, List.length_range]
      omega)
  rw [hsizes, hmcus'] at hscan
  rw [flatten_sent hbytes]
  exact readFile_headers (quant_eq q j core_count v) (components_eq q j core_count v) hscan

theorem enough (core_count : CoreCount) (j : JpegScreen) : Enough core_count j.mcuRows := by
  unfold JpegScreen.mcuRows jpegMcuRows JpegScreen.height rpScreenHeight
  cases core_count <;> cases j.ss <;> cases j.downsample <;> cases j.is_top <;> cases j.width <;>
    decide

end RemotePlay.Jpeg
