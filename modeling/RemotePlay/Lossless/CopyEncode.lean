import RemotePlay.Encode.BitStream
import Mathlib.Data.UInt

/-! # Sending a line as it is

Without compression and without subsampled chroma, `copy_encode` sends the pixels of a line in the
format they have, or in one of fewer bits: whole bytes, or codes of 12 bits.  With
`RP_DOWNSAMPLE_EVEN_ODD` it should send every second pixel of what it sends without, and it does
except for one loop of ten, which steps over the wrong pixels (`copyOuts_evenOdd`). -/

namespace RemotePlay.Lossless

open RemotePlay.Encode RemotePlay.Lib.Bits

/-- The formats of the framebuffer. -/
inductive ColorSpace
  | rgba8 | rgb8 | rgb565 | rgb5a1 | rgb4
  deriving DecidableEq, Repr

/-- `color_bias_1`. -/
def colorBias1 (r g b : UInt8) : UInt16 :=
  let r := r >>> 3
  let g := g >>> 2
  let b := b >>> 3
  r.toUInt16 <<< 11 ||| g.toUInt16 <<< 5 ||| b.toUInt16

/-- `color_bias_2`. -/
def colorBias2 (r g b : UInt8) : UInt16 :=
  let r := r >>> 4
  let g := g >>> 4
  let b := b >>> 4
  r.toUInt16 <<< 8 ||| g.toUInt16 <<< 4 ||| b.toUInt16

/-- What is sent for a pixel: bytes, or a code of 12 bits. -/
inductive Out
  | bytes (bs : List UInt8)
  | code (output : UInt16)
  deriving DecidableEq, Repr

/-- A slice of `n` bytes. -/
def slice (input : ℕ → UInt8) (n : ℕ) : List UInt8 := (List.range n).map input

/-- A `u16` read, and the bytes of one. -/
def readU16 (input : ℕ → UInt8) : UInt16 := (input 0).toUInt16 ||| (input 1).toUInt16 <<< 8

/-- The bytes of a word, the low one first. -/
def u16Bytes (v : UInt16) : List UInt8 := [v.toUInt8, (v >>> 8).toUInt8]

/-- `start` and `step` of the loops; nothing is sent for the other modes. -/
def startStep (downsample : Downsample) (even_odd : Bool) : Option (ℕ × ℕ) :=
  match downsample with
  | .none => some (0, 1)
  | .evenOdd => if even_odd = false then some (0, 2) else some (1, 2)
  | _ => none

/-- A loop over the pixels of a line. -/
def copyLoop {α : Type} (downsample : Downsample) (even_odd : Bool) (body : ℕ → ℕ → ℕ → α) :
    List α :=
  match startStep downsample even_odd with
  | some (start, step) => (List.range (GSP_SCREEN_WIDTH / step)).map (body start step)
  | none => []

/-- The pixels of a line: bytes for each, or a code of 12 bits for each. -/
inductive CopyLine
  | bytes (pixels : List (List UInt8))
  | codes (pixels : List UInt16)

section

variable (bias : ColorBias) (downsample : Downsample) (even_odd : Bool) (input : ℕ → UInt8)

/-- `copy_rgb8::<R, G, B, P, T>`. -/
def copyRgb8 (R G B P T : ℕ) : CopyLine :=
  match bias with
  | .none =>
    .bytes (copyLoop downsample even_odd fun start step i =>
      slice (fun k => input ((i * step + start) * P + T + k)) 3)
  | .bias1 =>
    .bytes (copyLoop downsample even_odd fun _ _ i =>
      -- `start` and `step` are not used
      let input := fun k => input (i * P + k)
      u16Bytes (colorBias1 (input R) (input G) (input B)))
  | .bias2 =>
    .codes (copyLoop downsample even_odd fun start step i =>
      let input := fun k => input ((i * step + start) * P + k)
      colorBias2 (input R) (input G) (input B))

/-- `copy_rgb565`. -/
def copyRgb565 : CopyLine :=
  match bias with
  | .none | .bias1 =>
    .bytes (copyLoop downsample even_odd fun start step i =>
      slice (fun k => input ((i * step + start) * 2 + k)) 2)
  | .bias2 =>
    .codes (copyLoop downsample even_odd fun start step i =>
      let input := readU16 fun k => input ((i * step + start) * 2 + k)
      let r := ((input >>> 11) &&& 0x1f) <<< 3
      let g := ((input >>> 5) &&& 0x3f) <<< 2
      let b := (input &&& 0x1f) <<< 3
      colorBias2 r.toUInt8 g.toUInt8 b.toUInt8)

/-- `copy_rgb5`. -/
def copyRgb5 : CopyLine :=
  match bias with
  | .none | .bias1 =>
    .bytes (copyLoop downsample even_odd fun start step i =>
      let input := readU16 fun k => input ((i * step + start) * 2 + k)
      let b := (input >>> 1) &&& 0x1f
      let output := input &&& ~~~0x3f ||| b
      u16Bytes output)
  | .bias2 =>
    .codes (copyLoop downsample even_odd fun start step i =>
      let input := readU16 fun k => input ((i * step + start) * 2 + k)
      let r := (input >>> 12) &&& 0xf
      let g := (input >>> 7) &&& 0xf
      let b := (input >>> 2) &&& 0xf
      r <<< 8 ||| g <<< 4 ||| b)

/-- `copy_rgb4`, the same for each bias. -/
def copyRgb4 : CopyLine :=
  .codes (copyLoop downsample even_odd fun start step i =>
    let input := readU16 fun k => input ((i * step + start) * 2 + k)
    input >>> 4)

/-- The line that `copy_encode` sends. -/
def copyLine (color_space : ColorSpace) : CopyLine :=
  match color_space with
  | .rgba8 => copyRgb8 bias downsample even_odd input 3 2 1 4 1
  | .rgb8 => copyRgb8 bias downsample even_odd input 2 1 0 3 0
  | .rgb565 => copyRgb565 bias downsample even_odd input
  | .rgb5a1 => copyRgb5 bias downsample even_odd input
  | .rgb4 => copyRgb4 downsample even_odd input

end

/-- What is sent for each pixel. -/
def CopyLine.outs : CopyLine → List Out
  | .bytes pixels => pixels.map .bytes
  | .codes pixels => pixels.map .code

/-- What `copy_encode` sends of a line. -/
def copyOuts (bias : ColorBias) (downsample : Downsample) (even_odd : Bool) (input : ℕ → UInt8)
    (color_space : ColorSpace) : List Out :=
  (copyLine bias downsample even_odd input color_space).outs

/-- A `write_bytes` for each pixel, or a `put_bits` into the line's `EncodeBuffer`, which has no
array. -/
def CopyLine.emit (P : PacketDataSize) (s : BitEncoderState × WorkerDst) :
    CopyLine → Option (BitEncoderState × WorkerDst)
  | .bytes pixels => do
    let dst ← pixels.foldlM (fun dst bs => dst.writeBytes P bs) s.2
    return (s.1, dst)
  | .codes pixels => do
    let e := pixels.foldl (fun e output => e.putBits P (BitVec.ofNat 32 output.toNat) 12)
      (EncodeBuffer.init 0 s.1 s.2 true)
    let dst ← e.store P
    return (e.state, dst)

/-- `copy_encode`. -/
def copyEncode (P : PacketDataSize) (color_space : ColorSpace) (bias : ColorBias)
    (downsample : Downsample) (even_odd : Bool) (input : ℕ → UInt8)
    (s : BitEncoderState × WorkerDst) : Option (BitEncoderState × WorkerDst) :=
  (copyLine bias downsample even_odd input color_space).emit P s

/-! ### Every second one -/

/-- The elements at positions 0, 2, 4 and so on. -/
def evens {α : Type} : List α → List α
  | [] => []
  | [a] => [a]
  | a :: _ :: l => a :: evens l

/-- The elements at positions `phase`, `phase + 2` and so on. -/
def everyOther {α : Type} (even_odd : Bool) (l : List α) : List α :=
  evens (l.drop even_odd.toNat)

theorem evens_map_range {α : Type} (f : ℕ → α) (n : ℕ) :
    evens ((List.range (2 * n)).map f) = (List.range n).map fun i => f (i * 2) := by
  induction n generalizing f with
  | zero => rfl
  | succ n ih =>
    have hsucc : (List.range (2 * (n + 1))).map f =
        f 0 :: f 1 :: (List.range (2 * n)).map fun i => f (i + 2) := by
      rw [Nat.mul_succ, List.range_succ_eq_map, List.map_cons, List.map_map, List.range_succ_eq_map,
        List.map_cons, List.map_map]
      rfl
    rw [hsucc, evens, ih, List.range_succ_eq_map, List.map_cons, List.map_map]
    refine congrArg _ (List.map_congr_left fun i _ => ?_)
    show f (i * 2 + 2) = f ((i + 1) * 2)
    rw [Nat.succ_mul]

theorem evens_drop_map_range {α : Type} (f : ℕ → α) (n : ℕ) :
    evens (((List.range (2 * n)).map f).drop 1) = (List.range n).map fun i => f (i * 2 + 1) := by
  induction n generalizing f with
  | zero => rfl
  | succ n ih =>
    have hsucc : ((List.range (2 * (n + 1))).map f).drop 1 =
        f 1 :: (List.range (2 * n)).map fun i => f (i + 2) := by
      rw [Nat.mul_succ, List.range_succ_eq_map, List.map_cons, List.map_map, List.range_succ_eq_map,
        List.map_cons, List.map_map]
      rfl
    rcases n with _ | n
    · rw [hsucc]
      rfl
    have hcons : (List.range (2 * (n + 1))).map (fun i => f (i + 2)) =
        f 2 :: ((List.range (2 * (n + 1))).map fun i => f (i + 2)).drop 1 := by
      rw [Nat.mul_succ, List.range_succ_eq_map, List.map_cons]
      rfl
    rw [hsucc, hcons, evens, ih, List.range_succ_eq_map (n := n + 1), List.map_cons, List.map_map]
    refine congrArg _ (List.map_congr_left fun i _ => ?_)
    show f (i * 2 + 1 + 2) = f ((i + 1) * 2 + 1)
    rw [Nat.succ_mul, Nat.add_right_comm]

theorem map_copyLoop {α β : Type} (f : α → β) (downsample : Downsample) (even_odd : Bool)
    (body : ℕ → ℕ → ℕ → α) : (copyLoop downsample even_odd body).map f =
      copyLoop downsample even_odd fun start step i => f (body start step i) := by
  unfold copyLoop
  rcases startStep downsample even_odd with _ | ⟨start, step⟩
  · rfl
  · exact List.map_map

section

variable {α : Type}

theorem everyOther_copyLoop (even_odd : Bool) (even_odd' : Bool) (body : ℕ → ℕ → ℕ → α) :
    everyOther even_odd (copyLoop .none even_odd' body) =
      (List.range (GSP_SCREEN_WIDTH / 2)).map fun i => body 0 1 (i * 2 + even_odd.toNat) := by
  cases even_odd
  · exact evens_map_range _ 120
  · exact evens_drop_map_range _ 120

theorem copyLoop_evenOdd (even_odd : Bool) (body : ℕ → ℕ → ℕ → α) :
    copyLoop .evenOdd even_odd body =
      (List.range (GSP_SCREEN_WIDTH / 2)).map (body even_odd.toNat 2) := by
  cases even_odd <;> rfl

/-- **A loop that finds its pixel by `i * step + start`** sends every second one. -/
theorem copyLoop_eq_everyOther (even_odd even_odd' : Bool) {body : ℕ → ℕ → ℕ → α}
    (h : ∀ {start step i start' step' i'}, i * step + start = i' * step' + start' →
      body start step i = body start' step' i') :
    copyLoop .evenOdd even_odd body = everyOther even_odd (copyLoop .none even_odd' body) := by
  rw [everyOther_copyLoop, copyLoop_evenOdd]
  refine List.map_congr_left fun i _ => h ?_
  rw [Nat.mul_one, Nat.add_zero]

end

/-! ### Values -/

theorem fields_toNat {r g b : UInt16} {m n : ℕ} (hr : 2 ^ m ∣ r.toNat) (hg : g.toNat < 2 ^ m)
    (hg' : 2 ^ n ∣ g.toNat) (hb : b.toNat < 2 ^ n) (hnm : n ≤ m) :
    (r ||| g ||| b).toNat = r.toNat + g.toNat + b.toNat := by
  have hor : ∀ {x y k : ℕ}, 2 ^ k ∣ x → y < 2 ^ k → x ||| y = x + y := by
    rintro x y k ⟨q, rfl⟩ hy
    rw [Nat.mul_comm, ← Nat.shiftLeft_eq, Nat.shiftLeft_add_eq_or_of_lt hy]
  have hhigh : 2 ^ n ∣ r.toNat + g.toNat := Nat.dvd_add ((pow_dvd_pow 2 hnm).trans hr) hg'
  rw [UInt16.toNat_or, UInt16.toNat_or, hor hr hg, hor hhigh hb]

theorem colorBias1_toNat (r g b : UInt8) : (colorBias1 r g b).toNat =
    r.toNat / 2 ^ 3 * 2 ^ 11 + g.toNat / 2 ^ 2 * 2 ^ 5 + b.toNat / 2 ^ 3 := by
  have hr := r.toNat_lt
  have hg := g.toNat_lt
  have hb := b.toNat_lt
  have hr' : ((r >>> 3).toUInt16 <<< 11).toNat = r.toNat / 2 ^ 3 * 2 ^ 11 := by
    simp [UInt16.toNat_shiftLeft, Nat.shiftLeft_eq, Nat.shiftRight_eq_div_pow]
    omega
  have hg' : ((g >>> 2).toUInt16 <<< 5).toNat = g.toNat / 2 ^ 2 * 2 ^ 5 := by
    simp [UInt16.toNat_shiftLeft, Nat.shiftLeft_eq, Nat.shiftRight_eq_div_pow]
    omega
  have hb' : ((b >>> 3).toUInt16).toNat = b.toNat / 2 ^ 3 := by
    simp [Nat.shiftRight_eq_div_pow]
  simp only [colorBias1]
  rw [fields_toNat (m := 11) (n := 5) (by omega) (by omega) (by omega) (by omega) (by decide), hr',
    hg', hb']

theorem colorBias2_toNat (r g b : UInt8) : (colorBias2 r g b).toNat =
    r.toNat / 2 ^ 4 * 2 ^ 8 + g.toNat / 2 ^ 4 * 2 ^ 4 + b.toNat / 2 ^ 4 := by
  have hr := r.toNat_lt
  have hg := g.toNat_lt
  have hb := b.toNat_lt
  have hr' : ((r >>> 4).toUInt16 <<< 8).toNat = r.toNat / 2 ^ 4 * 2 ^ 8 := by
    simp [UInt16.toNat_shiftLeft, Nat.shiftLeft_eq, Nat.shiftRight_eq_div_pow]
    omega
  have hg' : ((g >>> 4).toUInt16 <<< 4).toNat = g.toNat / 2 ^ 4 * 2 ^ 4 := by
    simp [UInt16.toNat_shiftLeft, Nat.shiftLeft_eq, Nat.shiftRight_eq_div_pow]
    omega
  have hb' : ((b >>> 4).toUInt16).toNat = b.toNat / 2 ^ 4 := by
    simp [Nat.shiftRight_eq_div_pow]
  simp only [colorBias2]
  rw [fields_toNat (m := 8) (n := 4) (by omega) (by omega) (by omega) (by omega) (by decide), hr',
    hg', hb']

/-- `color_bias_1` keeps the top five, six and five bits. -/
theorem colorBias1_inj {r g b r' g' b' : UInt8} :
    colorBias1 r g b = colorBias1 r' g' b' ↔
      r >>> 3 = r' >>> 3 ∧ g >>> 2 = g' >>> 2 ∧ b >>> 3 = b' >>> 3 := by
  constructor
  · intro h
    have heq := congrArg UInt16.toNat h
    have := r.toNat_lt
    have := r'.toNat_lt
    have := g.toNat_lt
    have := g'.toNat_lt
    have := b.toNat_lt
    have := b'.toNat_lt
    rw [colorBias1_toNat, colorBias1_toNat] at heq
    refine ⟨UInt8.toNat_inj.mp ?_, UInt8.toNat_inj.mp ?_, UInt8.toNat_inj.mp ?_⟩
    · simp [Nat.shiftRight_eq_div_pow]
      omega
    · simp [Nat.shiftRight_eq_div_pow]
      omega
    · simp [Nat.shiftRight_eq_div_pow]
      omega
  · rintro ⟨hr, hg, hb⟩
    simp only [colorBias1, hr, hg, hb]

/-- Bytes fit in packets, and codes in their 12 bits. -/
def Out.Ok : Out → Prop
  | .bytes bs => bs.length ≤ 3
  | .code output => output.toNat < 2 ^ 12

theorem copyLoop_forall {downsample : Downsample} {even_odd : Bool} {body : ℕ → ℕ → ℕ → Out}
    {p : Out → Prop} (h : ∀ start step i, p (body start step i)) :
    ∀ out ∈ copyLoop downsample even_odd body, p out := by
  intro out hout
  unfold copyLoop at hout
  rcases hs : startStep downsample even_odd with _ | ⟨start, step⟩
  · rw [hs] at hout
    cases hout
  · rw [hs] at hout
    obtain ⟨i, -, rfl⟩ := List.mem_map.mp hout
    exact h start step i

theorem colorBias2_ok (r g b : UInt8) : (Out.code (colorBias2 r g b)).Ok := by
  have hr := r.toNat_lt
  have hg := g.toNat_lt
  have hb := b.toNat_lt
  show (colorBias2 r g b).toNat < _
  rw [colorBias2_toNat]
  omega

/-- **No code has more than 12 bits**, whatever the format. -/
theorem copyOuts_ok (bias : ColorBias) (downsample : Downsample) (even_odd : Bool)
    (input : ℕ → UInt8) (color_space : ColorSpace) :
    ∀ out ∈ copyOuts bias downsample even_odd input color_space, out.Ok := by
  have hrgb8 : ∀ R G B P T,
      ∀ out ∈ (copyRgb8 bias downsample even_odd input R G B P T).outs, out.Ok := by
    intro R G B P T
    cases bias <;> simp only [copyRgb8, CopyLine.outs, map_copyLoop] <;>
      refine copyLoop_forall fun start step i => ?_
    · exact le_rfl
    · exact (by decide : 2 ≤ 3)
    · exact colorBias2_ok _ _ _
  cases color_space
  · exact hrgb8 3 2 1 4 1
  · exact hrgb8 2 1 0 3 0
  · cases bias <;> simp only [copyOuts, copyLine, copyRgb565, CopyLine.outs, map_copyLoop] <;>
      refine copyLoop_forall fun start step i => ?_
    · exact (by decide : 2 ≤ 3)
    · exact (by decide : 2 ≤ 3)
    · exact colorBias2_ok _ _ _
  · cases bias <;> simp only [copyOuts, copyLine, copyRgb5, CopyLine.outs, map_copyLoop] <;>
      refine copyLoop_forall fun start step i => ?_
    · exact (by decide : 2 ≤ 3)
    · exact (by decide : 2 ≤ 3)
    · generalize readU16 _ = v
      have hv := v.toNat_lt
      have hmask : ∀ k : UInt16, k.toNat < 16 → ((v >>> k) &&& 0xf).toNat < 16 := by
        intro k hk
        rw [UInt16.toNat_and]
        exact Nat.lt_of_le_of_lt Nat.and_le_right (by decide)
      have h12 := hmask 12 (by decide)
      have h7 := hmask 7 (by decide)
      have h2 := hmask 2 (by decide)
      show (((v >>> 12) &&& 0xf) <<< 8 ||| ((v >>> 7) &&& 0xf) <<< 4 |||
          ((v >>> 2) &&& 0xf)).toNat < _
      have h8' : (((v >>> 12) &&& 0xf) <<< 8).toNat = ((v >>> 12) &&& 0xf).toNat * 2 ^ 8 := by
        rw [UInt16.toNat_shiftLeft]
        simp only [Nat.shiftLeft_eq]
        exact Nat.mod_eq_of_lt (by show _ * 2 ^ 8 < 2 ^ 16; omega)
      have h4' : (((v >>> 7) &&& 0xf) <<< 4).toNat = ((v >>> 7) &&& 0xf).toNat * 2 ^ 4 := by
        rw [UInt16.toNat_shiftLeft]
        simp only [Nat.shiftLeft_eq]
        exact Nat.mod_eq_of_lt (by show _ * 2 ^ 4 < 2 ^ 16; omega)
      rw [fields_toNat (m := 8) (n := 4) (by omega) (by omega) (by omega) (by omega) (by decide)]
      omega
  · simp only [copyOuts, copyLine, copyRgb4, CopyLine.outs, map_copyLoop]
    refine copyLoop_forall fun start step i => ?_
    generalize readU16 _ = v
    have hv := v.toNat_lt
    show (v >>> 4).toNat < _
    simp [Nat.shiftRight_eq_div_pow]
    omega

/-! ### The output -/

/-- The bits of what is sent. -/
def Out.toBits : Out → List Bool
  | .bytes bs => byteBits bs
  | .code output => bits 12 output.toNat

section

variable {P : PacketDataSize} {pre E : List UInt8} {B : List Bool} {s : BitEncoderState × WorkerDst}

theorem exists_puts_codes {pixels : List UInt16} (hok : ∀ v ∈ pixels, (Out.code v).Ok) :
    ∃ qs : List Put, (∀ e, qs.foldl (fun e q => q.run P e) e =
        pixels.foldl (fun e output => e.putBits P (BitVec.ofNat 32 output.toNat) 12) e) ∧
      qs.flatMap Put.toBits = (pixels.map Out.code).flatMap Out.toBits := by
  induction pixels with
  | nil => exact ⟨[], fun _ => rfl, rfl⟩
  | cons v pixels ih =>
    have hv : v.toNat < 2 ^ 12 := hok v List.mem_cons_self
    have hlt : (BitVec.ofNat 32 v.toNat).toNat = v.toNat :=
      Nat.mod_eq_of_lt (lt_trans v.toNat_lt (by decide))
    obtain ⟨qs, hrun, hbits⟩ := ih fun v hv => hok v (List.mem_cons_of_mem _ hv)
    refine ⟨.putBits (BitVec.ofNat 32 v.toNat) 12 (by decide) (hlt.symm ▸ hv) :: qs,
      fun e => ?_, ?_⟩
    · rw [List.foldl_cons, hrun]
      rfl
    · rw [List.flatMap_cons, hbits, List.map_cons, List.flatMap_cons, Put.toBits, Out.toBits, hlt]

theorem codes_written (h : Written P true pre E B s) {pixels : List UInt16}
    (hok : ∀ v ∈ pixels, (Out.code v).Ok) :
    ∃ s' E', (CopyLine.codes pixels).emit P s = some s' ∧
      Written P true pre E' (B ++ (CopyLine.codes pixels).outs.flatMap Out.toBits) s' := by
  obtain ⟨qs, hrun, hbits⟩ := exists_puts_codes (P := P) hok
  obtain ⟨hval, hsome⟩ := h.runScope ⟨0, qs⟩
  obtain ⟨s', hs'⟩ := Option.isSome_iff_exists.mp (hsome (Or.inl rfl))
  obtain ⟨E', hE'⟩ := hval s' hs'
  rw [Scope.toBits, hbits] at hE'
  refine ⟨s', E', ?_, hE'⟩
  rw [runScope, hrun] at hs'
  exact hs'

theorem bytes_written (h : Written P true pre E B s) (hfree : s.1.free_bits = 32)
    {pixels : List (List UInt8)} (hok : ∀ bs ∈ pixels, (Out.bytes bs).Ok) :
    ∃ dst E', pixels.foldlM (fun dst bs => dst.writeBytes P bs) s.2 = some dst ∧
      Written P true pre E' (B ++ (CopyLine.bytes pixels).outs.flatMap Out.toBits) (s.1, dst) := by
  induction pixels generalizing E B s with
  | nil =>
    exact ⟨s.2, E, rfl, by rwa [CopyLine.outs, List.map_nil, List.flatMap_nil, List.append_nil]⟩
  | cons bs pixels ih =>
    have hlen : bs.length ≤ P.val :=
      le_trans (hok bs List.mem_cons_self) (le_trans (by decide) P.le)
    obtain ⟨d, hd⟩ := Option.isSome_iff_exists.mp (WorkerDst.writeBytes_isSome s.2 hlen)
    obtain ⟨hdok, hstream⟩ := h.ok.writeBytes hd
    have hpend : EncodeBuffer.pending s.1 = [] := by
      rw [EncodeBuffer.pending, hfree]
      rfl
    have hbits := h.bits
    rw [hpend, List.append_nil] at hbits
    have hstep : Written P true pre (E ++ bs) (B ++ byteBits bs) (s.1, d) := by
      refine ⟨hdok, ?_, ?_, h.free⟩
      · have hself : stuff true bs = bs := stuff_eq_self fun hne => Bool.noConfusion hne
        rw [hstream, h.stream, stuff_append, List.append_assoc, hself]
      · rw [byteBits_append, hbits, hpend, List.append_nil]
    obtain ⟨dst, E', hrun, h'⟩ := ih hstep hfree fun bs hbs => hok bs (List.mem_cons_of_mem _ hbs)
    refine ⟨dst, E', ?_, ?_⟩
    · rw [List.foldlM_cons, hd]
      exact hrun
    · rw [List.append_assoc] at h'
      exact h'

end

/-- Whether the pixels go out in codes. -/
def CopyLine.isCodes : CopyLine → Prop
  | .bytes _ => False
  | .codes _ => True

/-- **A line comes out as the bits of its pixels**, after what went before; where it goes out in
bytes, no bits may wait. -/
theorem copyEncode_written {P : PacketDataSize} {pre E : List UInt8} {B : List Bool}
    {s : BitEncoderState × WorkerDst} (h : Written P true pre E B s) (bias : ColorBias)
    (downsample : Downsample) (even_odd : Bool) (input : ℕ → UInt8) (color_space : ColorSpace)
    (hfree : s.1.free_bits = 32 ∨
      (copyLine bias downsample even_odd input color_space).isCodes) :
    ∃ s' E', copyEncode P color_space bias downsample even_odd input s = some s' ∧
      Written P true pre E'
        (B ++ (copyOuts bias downsample even_odd input color_space).flatMap Out.toBits) s' := by
  have hok := copyOuts_ok bias downsample even_odd input color_space
  unfold copyEncode
  unfold copyOuts at hok ⊢
  generalize copyLine bias downsample even_odd input color_space = line at hok hfree ⊢
  cases line with
  | bytes pixels =>
    have hfree : s.1.free_bits = 32 := hfree.resolve_right id
    obtain ⟨dst, E', hrun, h'⟩ := bytes_written h hfree fun bs hbs =>
      hok _ (List.mem_map_of_mem hbs)
    refine ⟨(s.1, dst), E', ?_, h'⟩
    rw [CopyLine.emit, hrun]
    rfl
  | codes pixels => exact codes_written h fun v hv => hok _ (List.mem_map_of_mem hv)

/-! ### The picture of every second pixel -/

/-- Pixel `i` and pixel `j` have the same top bits: five of red, six of green and five of blue. -/
def SameTop (input : ℕ → UInt8) (R G B P i j : ℕ) : Prop :=
  input (i * P + R) >>> 3 = input (j * P + R) >>> 3 ∧
    input (i * P + G) >>> 2 = input (j * P + G) >>> 2 ∧
    input (i * P + B) >>> 3 = input (j * P + B) >>> 3

/-- The pixels sent instead of the right ones cannot be told from them. -/
def SameTops (even_odd : Bool) (input : ℕ → UInt8) : ColorSpace → Prop
  | .rgba8 => ∀ i < GSP_SCREEN_WIDTH / 2, SameTop input 3 2 1 4 i (i * 2 + even_odd.toNat)
  | .rgb8 => ∀ i < GSP_SCREEN_WIDTH / 2, SameTop input 2 1 0 3 i (i * 2 + even_odd.toNat)
  | _ => True

theorem copyRgb8_evenOdd (bias : ColorBias) (even_odd even_odd' : Bool) (input : ℕ → UInt8)
    (R G B P T : ℕ) :
    (copyRgb8 bias .evenOdd even_odd input R G B P T).outs =
        everyOther even_odd (copyRgb8 bias .none even_odd' input R G B P T).outs ↔
      (bias = .bias1 → ∀ i < GSP_SCREEN_WIDTH / 2,
      SameTop input R G B P i (i * 2 + even_odd.toNat)) := by
  cases bias with
  | none =>
    simp only [copyRgb8, CopyLine.outs, map_copyLoop]
    refine iff_of_true (copyLoop_eq_everyOther even_odd even_odd' fun h => ?_) (by intro h; cases h)
    simp only [h]
  | bias1 =>
    have hinj : ∀ v w : UInt16, Out.bytes (u16Bytes v) = Out.bytes (u16Bytes w) ↔ v = w := by
      intro v w
      refine ⟨fun h => ?_, fun h => h ▸ rfl⟩
      injection h with h
      injection h with hlow hhigh
      injection hhigh with hhigh
      have h0 := congrArg UInt8.toNat hlow
      have h1 := congrArg UInt8.toNat hhigh
      have := v.toNat_lt
      have := w.toNat_lt
      simp [Nat.shiftRight_eq_div_pow] at h0 h1
      exact UInt16.toNat_inj.mp (by omega)
    simp only [copyRgb8, CopyLine.outs, map_copyLoop]
    rw [everyOther_copyLoop, copyLoop_evenOdd, List.map_inj_left]
    simp only [List.mem_range, hinj, colorBias1_inj, SameTop, true_implies]
  | bias2 =>
    simp only [copyRgb8, CopyLine.outs, map_copyLoop]
    refine iff_of_true (copyLoop_eq_everyOther even_odd even_odd' fun h => ?_) (by intro h; cases h)
    simp only [h]

/-- **With `RP_DOWNSAMPLE_EVEN_ODD` every second pixel is sent**, just as it is without, for every
format, bias and phase, but for `RP_COLOR_BIAS_1` of the formats of eight bits: there the pixels of
the first half of the line are sent, which is the same only where they cannot be told apart. -/
theorem copyOuts_evenOdd (bias : ColorBias) (even_odd even_odd' : Bool) (input : ℕ → UInt8)
    (color_space : ColorSpace) :
    copyOuts bias .evenOdd even_odd input color_space =
        everyOther even_odd (copyOuts bias .none even_odd' input color_space) ↔
      (bias = .bias1 → SameTops even_odd input color_space) := by
  cases color_space with
  | rgba8 => exact copyRgb8_evenOdd bias even_odd even_odd' input 3 2 1 4 1
  | rgb8 => exact copyRgb8_evenOdd bias even_odd even_odd' input 2 1 0 3 0
  | rgb565 =>
    refine iff_of_true ?_ fun _ => trivial
    cases bias <;> simp only [copyOuts, copyLine, copyRgb565, CopyLine.outs, map_copyLoop] <;>
      exact copyLoop_eq_everyOther even_odd even_odd' fun h => by simp only [h]
  | rgb5a1 =>
    refine iff_of_true ?_ fun _ => trivial
    cases bias <;> simp only [copyOuts, copyLine, copyRgb5, CopyLine.outs, map_copyLoop] <;>
      exact copyLoop_eq_everyOther even_odd even_odd' fun h => by simp only [h]
  | rgb4 =>
    refine iff_of_true ?_ fun _ => trivial
    simp only [copyOuts, copyLine, copyRgb4, CopyLine.outs, map_copyLoop]
    exact copyLoop_eq_everyOther even_odd even_odd' fun h => by simp only [h]

/-- Two white pixels and 238 black ones: the second pixel sent is the second of the line, and
white. -/
theorem copyOuts_evenOdd_wrong :
    ¬∀ (bias : ColorBias) (even_odd even_odd' : Bool) (input : ℕ → UInt8)
      (color_space : ColorSpace), copyOuts bias .evenOdd even_odd input color_space =
        everyOther even_odd (copyOuts bias .none even_odd' input color_space) := by
  intro h
  have hsecond := congrArg (fun l => l[1]?)
    (h .bias1 false false (fun k => if k < 6 then 255 else 0) .rgb8)
  have hne : (Out.bytes [255, 255] : Out) ≠ Out.bytes [0, 0] := by decide
  exact hne (Option.some.inj hsecond)

end RemotePlay.Lossless
