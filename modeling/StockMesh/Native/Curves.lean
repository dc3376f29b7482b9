import StockMesh.Adapters.Layout

/-! # Native quotes

The transfer fee of a Token-2022 mint, and the compiled pool curves. How a concentrated or binned pool
prices a swap is not modelled: `Natives` is any family of curves with the operations the oracle
calls, and everything above holds for every such family. -/

namespace StockMesh

/-- The errors of the native crate. The last one is the panic of an overflow-checked operation. -/
inductive NativeError
  | layout
  | unsupported
  | arithmetic
  | capacity
  | stale
  | overflow
  deriving DecidableEq, Repr

/-- Results of the native crate. -/
abbrev NativeResult (α : Type) := Except NativeError α

/-- The fee a mint withholds from a transfer (`TransferFee`). -/
structure TransferFee where
  bps : ℕ := 0
  maximum : ℕ := 0
  deriving DecidableEq

instance : Inhabited TransferFee := ⟨{}⟩

/-- `d[p..].iter().all(|b| *b == 0)`. -/
def zeroFrom (d : Buffer) (p : ℕ) : Bool :=
  (List.range (d.size - p)).all fun i => d.byte (p + i) = 0

/-- The bytes of a slice from an offset on are zero. -/
def zeroTail (bytes : List UInt8) (offset : ℕ) : Bool := (bytes.drop offset).all fun b => b = 0

/-- The mint extensions the crate admits. -/
def mintExtensions : List ℕ := [1, 3, 4, 6, 10, 12, 14, 16, 18, 19, 25, 26]

/-- A mint extension other than the transfer fee has the admitted form. -/
def extensionAdmitted (kind : ℕ) (ext : List UInt8) : Bool :=
  match kind with
  | 14 => ext.length = 64 && zeroTail ext 32
  | 16 => ext.length = 129
  | 26 => ext.length = 33 && ext.getD 32 0 = 0
  | 6 => ext.length = 1 && ext.getD 0 0 = 1
  | _ => true

/-- The transfer fee extension: the newer fee from its epoch on. -/
def TransferFee.ofExtension (ext : List UInt8) (epoch : ℕ) : NativeResult TransferFee := do
  if ext.length ≠ 108 then .error .layout else
  let data := Buffer.ofList ext
  let newer ← okOr (data.number 90 8) .layout
  let o := if newer ≤ epoch then 90 else 72
  let maximum ← okOr (data.number (o + 8) 8) .layout
  let bps ← okOr (data.number (o + 16) 2) .layout
  if 10000 < bps then .error .layout else .ok { bps, maximum }

/-- The extension loop of `TransferFee::decode`. Every round moves on by four bytes at least, so as
many rounds as bytes are enough. -/
def TransferFee.scan (mint : Buffer) (epoch : ℕ) :
    ℕ → ℕ → ℕ → TransferFee → NativeResult TransferFee
  | 0, _, _, fee => .ok fee
  | fuel + 1, p, seen, fee => do
    if mint.size ≤ p ∨ zeroFrom mint p = true then .ok fee else
    let kind ← okOr (mint.number p 2) .layout
    let len ← okOr (mint.number (p + 2) 2) .layout
    if kind ∉ mintExtensions ∨ seen.testBit kind then .error .unsupported else
    let ext ← okOr (mint.slice (p + 4) len) .layout
    if extensionAdmitted kind ext = false then .error .unsupported else
    let fee ← if kind = 1 then ofExtension ext epoch else .ok fee
    scan mint epoch fuel (p + 4 + len) (seen ||| 1 <<< kind) fee

/-- `TransferFee::decode`. -/
def TransferFee.decode (mint : Buffer) (epoch : ℕ) : NativeResult TransferFee :=
  if mint.size < 82 ∨ mint.byte 45 ≠ 1 then .error .layout
  else if mint.size = 82 then .ok {}
  else if mint.size < 166 ∨ mint.byte 165 ≠ 1 ∨
      (List.range (165 - 82)).any (fun i => mint.byte (82 + i) ≠ 0) = true then .error .layout
  else scan mint epoch mint.size 166 0 {}

/-- `TransferFee::net`. -/
def TransferFee.net (fee : TransferFee) (amount : ℕ) : NativeResult ℕ :=
  let withheld := min ((amount * fee.bps + 9999) / 10000) fee.maximum
  if withheld ≤ amount then .ok (amount - withheld) else .error .arithmetic

/-- The compiled curves of the native crate. -/
structure Natives where
  Clmm : Type
  Orca : Type
  Dlmm : Type
  /-- `ClmmCurve::decode` and `decode_byreal`. -/
  clmmDecode : (byreal : Bool) → Key → Buffer → Buffer → List Buffer →
    TransferFee × TransferFee → ℕ → NativeResult Clmm
  /-- `ClmmCurve::refresh_after_swap`: the curve it leaves and whether it succeeded. -/
  clmmRefresh : Clmm → Buffer → Buffer → ℕ → Clmm × Bool
  clmmQuote : Clmm → ℕ → Bool → NativeResult ℕ
  orcaDecode : Key → Buffer → List Buffer → Buffer → TransferFee × TransferFee → ℕ → Bool →
    NativeResult Orca
  orcaQuote : Orca → ℕ → NativeResult ℕ
  dlmmDecode : Key → Buffer → List Buffer → TransferFee × TransferFee → ℕ → ℕ → NativeResult Dlmm
  dlmmQuote : Dlmm → ℕ → Bool → NativeResult ℕ
  /-- `DammCurve::decode` followed by `quote`. -/
  dammQuote : Buffer → TransferFee × TransferFee → ℕ → ℕ → ℕ → Bool → NativeResult ℕ

end StockMesh
