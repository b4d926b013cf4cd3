import RemotePlay.Fec.Memory
import RemotePlay.Config

/-! # The encoder of recovery packets

`Encoder::Initialize` sums the columns of the data in eight lanes, plainly and multiplied by a value
of the column and by its square; `Encoder::Encode` adds some of the sums and some of the columns for
a row of the code, as a hash of the row and a generator seeded with it say. -/

namespace RemotePlay.Fec

open RemotePlay.Lib.ByteMemory

/-! ### `FecalCommon.h` -/

/-- The bytes of the group header, which the code does not cover. -/
def FEC_OVERHEAD_SIZE : ℕ := 2
/-- The bytes of a packet that it covers. -/
def FEC_DATA_SIZE : ℕ := PACKET_SIZE - FEC_OVERHEAD_SIZE

/-- `SymbolSize`: a packet is one symbol. -/
def SymbolSize : ℕ := FEC_DATA_SIZE

/-- The values that columns take. -/
def kColumnValuePeriod : ℕ := 253
/-- The values that rows take. -/
def kRowValuePeriod : ℕ := 255
/-- The lanes that columns are summed in. -/
def kColumnLaneCount : ℕ := 8
/-- The sums of a lane: plain, by value and by its square. -/
def kColumnSumCount : ℕ := 3
/-- A row draws a pair of columns for so many columns. -/
def kPairAddRate : ℕ := 16

/-- `PCGRandom`. -/
structure PCGRandom where
  State : BitVec 64
  Inc : BitVec 64

namespace PCGRandom

/-- The state after `Next`. -/
def step (prng : PCGRandom) : PCGRandom :=
  { prng with State := prng.State * 6364136223846793005#64 + prng.Inc }

/-- What `Next` returns. -/
def out (prng : PCGRandom) : BitVec 32 :=
  let oldstate := prng.State
  let xorshifted := (((oldstate >>> 18) ^^^ oldstate) >>> 27).setWidth 32
  let rot := (oldstate >>> 59).setWidth 32
  (xorshifted >>> rot) ||| (xorshifted <<< ((-rot) &&& 31#32))

/-- `Seed`. -/
def Seed (y x : BitVec 64) : PCGRandom :=
  let prng := step { State := 0, Inc := y <<< 1 ||| 1 }
  step { prng with State := prng.State + x }

end PCGRandom

/-- `Int32Hash`. -/
def Int32Hash (key : BitVec 32) : BitVec 32 :=
  let key := key + ~~~(key <<< 15)
  let key := key ^^^ (key >>> 10)
  let key := key + (key <<< 3)
  let key := key ^^^ (key >>> 6)
  let key := key + ~~~(key <<< 11)
  key ^^^ (key >>> 16)

/-- `GetColumnValue`. -/
def GetColumnValue (column : ℕ) : BitVec 8 :=
  BitVec.ofNat 8 (3 + column * 199 % 2 ^ 32 % kColumnValuePeriod)

/-- `GetRowValue`. -/
def GetRowValue (row : BitVec 32) : BitVec 8 :=
  BitVec.ofNat 8 (1 + (row + 1).toNat % kRowValuePeriod)

/-- `GetRowOpcode`. -/
def GetRowOpcode (lane : ℕ) (row : BitVec 32) : BitVec 32 :=
  let opcode := Int32Hash (BitVec.ofNat 32 lane + (row + 3) * BitVec.ofNat 32 kColumnLaneCount) &&&
    BitVec.ofNat 32 (1 <<< (kColumnSumCount * 2) - 1)
  if opcode = 0 then BitVec.ofNat 32 (1 <<< ((kColumnSumCount - 1) * 2)) else opcode

/-- `AppDataWindow`, with the data. -/
structure AppDataWindow where
  InputCount : ℕ
  TotalBytes : ℕ
  FinalBytes : ℕ
  OriginalData : ℕ → Bytes

namespace AppDataWindow

/-- `SetParameters`. -/
def SetParameters (input_count total_bytes : ℕ) (input_data : ℕ → Bytes) : Option AppDataWindow :=
  if input_count = 0 ∨ total_bytes < input_count then none
  else
    some {
      InputCount := input_count
      TotalBytes := total_bytes
      FinalBytes := if total_bytes % SymbolSize = 0 then SymbolSize else total_bytes % SymbolSize
      OriginalData := input_data }

variable (win : AppDataWindow)

/-- `IsFinalColumn`. -/
def IsFinalColumn (column : ℕ) : Bool := column == win.InputCount - 1

/-- `GetColumnBytes`. -/
def GetColumnBytes (column : ℕ) : ℕ :=
  if win.IsFinalColumn column then win.FinalBytes else SymbolSize

end AppDataWindow

/-- `XORSummer`: the destination, and the source that waits for a second one. -/
structure XORSummer where
  dest : Bytes
  waiting : Option Bytes

namespace XORSummer

/-- `Initialize`. -/
def init (dest : Bytes) : XORSummer where
  dest := dest
  waiting := none

/-- `Add`. -/
def add (s : XORSummer) (src : Bytes) (bytes : ℕ) : XORSummer :=
  match s.waiting with
  | some waiting => { dest := gf256_add2_mem s.dest src waiting bytes, waiting := none }
  | none => { s with waiting := some src }

/-- `Finalize`. -/
def finalize (s : XORSummer) (bytes : ℕ) : Bytes :=
  match s.waiting with
  | some waiting => gf256_add_mem s.dest waiting bytes
  | none => s.dest

/-- `gf256_add_mem` on the destination of a summer. -/
def addMem (s : XORSummer) (src : Bytes) (bytes : ℕ) : XORSummer :=
  { s with dest := gf256_add_mem s.dest src bytes }

end XORSummer

/-! ### `FecalEncoder.cpp` -/

/-- `Encoder`. -/
structure Encoder where
  Window : AppDataWindow
  LaneSums : ℕ → ℕ → Bytes

/-- The columns of a lane before the last column. -/
def laneColumns (laneIndex columnEnd : ℕ) : List ℕ :=
  List.range' laneIndex ((columnEnd - laneIndex + (kColumnLaneCount - 1)) / kColumnLaneCount)
    kColumnLaneCount

/-- The plain sum of a lane. -/
def laneSum (win : AppDataWindow) (laneIndex : ℕ) : Bytes :=
  let columnEnd := win.InputCount - 1
  let sum := (laneColumns laneIndex columnEnd).foldl
    (fun (sum : XORSummer) column => sum.add (win.OriginalData column) SymbolSize)
    (XORSummer.init (List.replicate SymbolSize 0))
  let sum := if columnEnd % kColumnLaneCount = laneIndex then
    sum.addMem (win.OriginalData columnEnd) win.FinalBytes else sum
  sum.finalize SymbolSize

/-- The sums before the products are added: the plain ones are made. -/
def plainSums (win : AppDataWindow) (laneIndex sumIndex : ℕ) : Bytes :=
  if laneIndex < kColumnLaneCount ∧ sumIndex = 0 then laneSum win laneIndex
  else List.replicate SymbolSize 0

/-- The products of a column are added to the sums of its lane. -/
def addProducts (win : AppDataWindow) (sums : ℕ → ℕ → Bytes) (column : ℕ) : ℕ → ℕ → Bytes :=
  let columnData := win.OriginalData column
  let columnBytes := win.GetColumnBytes column
  let laneIndex := column % kColumnLaneCount
  let CX := GetColumnValue column
  let CX2 := gf256_sqr CX
  let lane := sums laneIndex
  let lane := Function.update lane 1 (gf256_muladd_mem (lane 1) CX columnData columnBytes)
  let lane := Function.update lane 2 (gf256_muladd_mem (lane 2) CX2 columnData columnBytes)
  Function.update sums laneIndex lane

/-- `Encoder::Initialize`. -/
def Encoder.Initialize (input_count : ℕ) (input_data : ℕ → Bytes) (total_bytes : ℕ) :
    Option Encoder := do
  let win ← AppDataWindow.SetParameters input_count total_bytes input_data
  some {
    Window := win
    LaneSums := (List.range input_count).foldl (addProducts win) (plainSums win) }

/-- Copying a column: what is not there is zero. -/
def copyColumn (win : AppDataWindow) (element : ℕ) : Bytes :=
  (List.range SymbolSize).map fun i =>
    if i < win.GetColumnBytes element then (win.OriginalData element).getD i 0 else 0

/-- Adding a column: the last one may be short. -/
def addColumn (win : AppDataWindow) (sum : XORSummer) (element : ℕ) : XORSummer :=
  if win.IsFinalColumn element then sum.addMem (win.OriginalData element) win.FinalBytes
  else sum.add (win.OriginalData element) SymbolSize

/-- One round of the loop over pairs: the generator, the sum and the product. -/
def addPair (win : AppDataWindow) (s : PCGRandom × XORSummer × XORSummer) :
    PCGRandom × XORSummer × XORSummer :=
  let element1 := s.1.out.toNat % win.InputCount
  let elementRX := s.1.step.out.toNat % win.InputCount
  (s.1.step.step, addColumn win s.2.1 element1, addColumn win s.2.2 elementRX)

/-- The sums of a lane that a mask selects, starting at bit `shift` of the operation code. -/
def addLane (enc : Encoder) (laneIndex : ℕ) (opcode : BitVec 32) (shift : ℕ) (sum : XORSummer) :
    XORSummer :=
  (List.range kColumnSumCount).foldl (fun sum sumIndex =>
    if opcode.getLsbD (shift + sumIndex) then sum.add (enc.LaneSums laneIndex sumIndex) SymbolSize
    else sum) sum

/-- `Encoder::Encode`: `bytes` and `row` are the symbol's. -/
def Encoder.Encode (enc : Encoder) (bytes : ℕ) (row : BitVec 32) : Option Bytes :=
  if bytes ≠ SymbolSize then none
  else
    let win := enc.Window
    let count := win.InputCount
    let prng := PCGRandom.Seed (row.setWidth 64) (BitVec.ofNat 64 count)
    let pairCount := (count + kPairAddRate - 1) % 2 ^ 32 / kPairAddRate
    let element1 := prng.out.toNat % count
    let prng := prng.step
    let elementRX := prng.out.toNat % count
    let prng := prng.step
    let sum := XORSummer.init (copyColumn win element1)
    let prod := XORSummer.init (copyColumn win elementRX)
    let s := (addPair win)^[pairCount - 1] (prng, sum, prod)
    let sums := (List.range kColumnLaneCount).foldl (fun s laneIndex =>
      let opcode := GetRowOpcode laneIndex row
      (addLane enc laneIndex opcode 0 s.1, addLane enc laneIndex opcode kColumnSumCount s.2)) s.2
    some (gf256_muladd_mem (sums.1.finalize SymbolSize) (GetRowValue row)
      (sums.2.finalize SymbolSize) SymbolSize)

end RemotePlay.Fec
