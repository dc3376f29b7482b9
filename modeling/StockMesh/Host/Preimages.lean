import StockMesh.Foundation.PrefixFree
import StockMesh.Foundation.Format
import StockMesh.Host.Basket
import StockMesh.Host.Selection
import StockMesh.Adapters.Wire

/-! # Signed preimages

What is hashed and signed tells what was meant. Products, intents and bids are concatenations of fields of
fixed widths, of texts after their lengths and of counted lists. The message of a strategy is a text of
lines, where no field contains a line break and no stock is called like the line that follows them.

The bytes of a bid leave out its signature; they tell everything else. -/

namespace StockMesh.Host

open Journal (refuse_eq_ok validInstrument isHexDigit)

/-! ## Texts as bytes -/

private theorem byteArray_loop (bytes : ByteArray) (i : ℕ) (out : List UInt8) :
    ByteArray.toList.loop bytes i out = out.reverse ++ bytes.data.toList.drop i := by
  fun_induction ByteArray.toList.loop bytes i out with
  | case1 i out hlt ih =>
    -- the byte at the place moves from the rest to the output
    have hi : i < bytes.data.toList.length := by simpa using hlt
    have hbyte : bytes.get! i = bytes.data.toList[i] := by simp [ByteArray.get!, hlt]
    rw [ih, hbyte, List.drop_eq_getElem_cons hi, List.reverse_cons, List.append_assoc, List.singleton_append]
  | case2 i out hge => rw [List.drop_of_length_le (by simpa using hge), List.append_nil]

/-- Texts of the same bytes are the same. -/
theorem toUTF8_inj {s t : String} (h : s.toUTF8.toList = t.toUTF8.toList) : s = t := by
  rw [ByteArray.toList, ByteArray.toList, byteArray_loop, byteArray_loop] at h
  have hdata : s.toUTF8.data.toList = t.toUTF8.data.toList := h
  exact String.toByteArray_inj.mp (ByteArray.ext (Array.ext' hdata))

/-- Texts after their lengths. -/
theorem field_inj {s t : String} {code code' rest rest' : List UInt8} (hs : field s.toUTF8.toList = .ok code)
    (ht : field t.toUTF8.toList = .ok code') (h : code ++ rest = code' ++ rest') : s = t ∧ rest = rest' := by
  simp only [field, bind_eq_ok, refuse_eq_ok, Except.ok.injEq, not_le] at hs ht
  obtain ⟨_, hslt, rfl⟩ := hs
  obtain ⟨_, htlt, rfl⟩ := ht
  obtain ⟨hlength, htail⟩ := List.cons.inj h
  obtain ⟨hbytes, hrest⟩ := List.append_inj htail (ofNat_inj hslt htlt hlength)
  exact ⟨toUTF8_inj hbytes, hrest⟩

/-- Keys have one width. -/
theorem key_append_inj {k k' : Key} {rest rest' : List UInt8} (h : k.toList ++ rest = k'.toList ++ rest') :
    k = k' ∧ rest = rest' := by
  obtain ⟨hk, hrest⟩ := List.append_inj h (by simp)
  exact ⟨Vector.toList_inj.mp hk, hrest⟩

/-- Numbers have the width of their type. -/
theorem toBytes_append_inj {k m n : ℕ} {rest rest' : List UInt8} (hm : m < 256 ^ k) (hn : n < 256 ^ k)
    (h : Buffer.toBytes k m ++ rest = Buffer.toBytes k n ++ rest') : m = n ∧ rest = rest' := by
  obtain ⟨hbytes, hrest⟩ := List.append_inj h (by simp)
  exact ⟨Buffer.toBytes_inj hm hn hbytes, hrest⟩

section

variable {crates : MeshCrates} {bytes : List UInt8}

/-! ## Products -/

/-- Products that agree but for the spelling of their keys. -/
def ProductIdentity.Same (crates : MeshCrates) (p q : ProductIdentity) : Prop :=
  q = { p with mint := q.mint, tokenProgram := q.tokenProgram } ∧ crates.key p.mint = crates.key q.mint ∧
    crates.key p.tokenProgram = crates.key q.tokenProgram

/-- The hashed bytes of a product tell the product. -/
theorem ProductIdentity.idBytes_inj {p q : ProductIdentity} (hp : p.idBytes crates = .ok bytes)
    (hq : q.idBytes crates = .ok bytes) : p.Same crates q := by
  simp only [idBytes, validate, bind_eq_ok, refuse_eq_ok, Except.ok.injEq] at hp hq
  obtain ⟨_, ⟨_, hpbounds, _⟩, instrument, hinstrument, issuer, hissuer, mint, hmint, program, hprogram, rfl⟩ := hp
  obtain ⟨_, ⟨_, hqbounds, _⟩, instrument', hinstrument', issuer', hissuer', mint', hmint', program', hprogram',
    heq⟩ := hq
  simp only [Malformed, not_or, not_lt] at hpbounds hqbounds
  obtain ⟨-, -, -, -, -, -, -, hdecimals⟩ := hpbounds
  obtain ⟨-, -, -, -, -, -, -, hdecimals'⟩ := hqbounds
  simp only [List.append_assoc] at heq
  have h := List.append_cancel_left heq
  obtain ⟨hinst, h⟩ := field_inj hinstrument' hinstrument h
  obtain ⟨hiss, h⟩ := field_inj hissuer' hissuer h
  obtain ⟨hmints, h⟩ := key_append_inj h
  obtain ⟨hprograms, h⟩ := key_append_inj h
  obtain ⟨hrights, h⟩ := key_append_inj h
  have hdec := ofNat_inj (by omega) (by omega) (List.cons.inj h).1
  refine ⟨?_, hmint.trans (hmints ▸ hmint'.symm), hprogram.trans (hprograms ▸ hprogram'.symm)⟩
  cases p
  cases q
  simp_all

/-! ## Intents -/

namespace FrozenIntent

/-- The bytes that `commitment` hashes, when it accepts the intent. -/
def preimage (crates : MeshCrates) (intent : FrozenIntent) (currentSlot : ℕ) : Answer (List UInt8) := do
  refuse (intent.Malformed currentSlot) "invalid frozen StockMesh intent"
  let owner ← crates.key intent.owner
  let inputMint ← crates.key intent.inputMint
  refuse (owner = inputMint) "invalid frozen StockMesh intent"
  refuse ((∃ id ∈ intent.admittedProductIds, id = zeroKey) ∨ ¬intent.admittedProductIds.Nodup)
    "duplicate or empty admitted product"
  let instrument ← field intent.instrument.toUTF8.toList
  .ok (intent.commitmentBytes owner inputMint instrument)

/-- A commitment is the digest of the preimage. -/
theorem commitment_eq (crates : MeshCrates) (intent : FrozenIntent) (currentSlot : ℕ) :
    intent.commitment crates currentSlot =
      intent.preimage crates currentSlot >>= fun bytes => .ok (crates.sha256 bytes) := by
  simp only [commitment, preimage, bind_assoc, ok_bind]

/-- The fields fit their types. -/
structure InRange (intent : FrozenIntent) : Prop where
  ownerNonce : intent.ownerNonce < u64Size
  minimumExposureQ32 : intent.minimumExposureQ32 < u128Size
  deadlineSlot : intent.deadlineSlot < u64Size

/-- Intents that agree but for the spelling of their keys. -/
def Same (crates : MeshCrates) (p q : FrozenIntent) : Prop :=
  q = { p with owner := q.owner, inputMint := q.inputMint } ∧ crates.key p.owner = crates.key q.owner ∧
    crates.key p.inputMint = crates.key q.inputMint

/-- The hashed bytes of an intent tell the intent, with the order of its products. -/
theorem preimage_inj {p q : FrozenIntent} {slot slot' : ℕ} (hpr : p.InRange) (hqr : q.InRange)
    (hp : p.preimage crates slot = .ok bytes) (hq : q.preimage crates slot' = .ok bytes) : p.Same crates q := by
  simp only [preimage, bind_eq_ok, refuse_eq_ok, Except.ok.injEq] at hp hq
  obtain ⟨_, hpbounds, owner, howner, mint, hmint, _, -, _, -, instrument, hinstrument, rfl⟩ := hp
  obtain ⟨_, hqbounds, owner', howner', mint', hmint', _, -, _, -, instrument', hinstrument', heq⟩ := hq
  simp only [Malformed, not_or, not_lt] at hpbounds hqbounds
  obtain ⟨-, -, -, -, -, hatoms, -, -, hcount, -⟩ := hpbounds
  obtain ⟨-, -, -, -, -, hatoms', -, -, hcount', -⟩ := hqbounds
  simp only [commitmentBytes, List.append_assoc] at heq
  have h := List.append_cancel_left heq
  obtain ⟨hid, h⟩ := key_append_inj h
  obtain ⟨howners, h⟩ := key_append_inj h
  obtain ⟨hnonce, h⟩ := toBytes_append_inj hqr.ownerNonce hpr.ownerNonce h
  obtain ⟨hinst, h⟩ := field_inj hinstrument' hinstrument h
  obtain ⟨hmints, h⟩ := key_append_inj h
  obtain ⟨hinput, h⟩ := toBytes_append_inj (by omega) (by omega) h
  obtain ⟨hexposure, h⟩ := toBytes_append_inj hqr.minimumExposureQ32 hpr.minimumExposureQ32 h
  -- the count comes before the products
  obtain ⟨hlength, h⟩ := List.cons.inj h
  have hlength := ofNat_inj (by omega) (by omega) hlength
  have hkeys : PrefixFreeOn (fun _ : Key => True) Vector.toList := fun k k' _ _ _ _ => key_append_inj
  obtain ⟨hproducts, h⟩ := hkeys.flatMap (fun _ _ => trivial) (fun _ _ => trivial) hlength h
  obtain ⟨hpolicy, h⟩ := key_append_inj h
  obtain ⟨hworld, h⟩ := key_append_inj h
  have hdeadline := Buffer.toBytes_inj hqr.deadlineSlot hpr.deadlineSlot h
  refine ⟨?_, howner.trans (howners ▸ howner'.symm), hmint.trans (hmints ▸ hmint'.symm)⟩
  cases p
  cases q
  simp_all

end FrozenIntent

/-! ## Bids -/

namespace ExecutorBid

/-- The fields fit their types. -/
structure InRange (bid : ExecutorBid) : Prop where
  sequence : bid.sequence < u64Size
  guaranteedExposureQ32 : bid.guaranteedExposureQ32 < u128Size
  expiresSlot : bid.expiresSlot < u64Size

/-- Bids that agree but for the spelling of the executor's key. -/
def Same (crates : MeshCrates) (p q : ExecutorBid) : Prop :=
  q = { p with executor := q.executor } ∧ crates.key p.executor = crates.key q.executor

/-- Bids that agree but for the spelling of the executor's key and the signature. -/
def SameStatement (crates : MeshCrates) (p q : ExecutorBid) : Prop :=
  q = { p with executor := q.executor, signature := q.signature } ∧ crates.key p.executor = crates.key q.executor

/-- The signed bytes of a bid tell the bid, but for its signature. -/
theorem signingBytes_inj {p q : ExecutorBid} (hpr : p.InRange) (hqr : q.InRange)
    (hp : p.signingBytes crates = .ok bytes) (hq : q.signingBytes crates = .ok bytes) :
    p.SameStatement crates q := by
  simp only [signingBytes, bind_eq_ok, refuse_eq_ok, Except.ok.injEq] at hp hq
  obtain ⟨_, hpbounds, executor, hexecutor, rfl⟩ := hp
  obtain ⟨_, hqbounds, executor', hexecutor', heq⟩ := hq
  simp only [Malformed, not_or, not_lt] at hpbounds hqbounds
  obtain ⟨-, -, -, -, -, hfee, -, hunits⟩ := hpbounds
  obtain ⟨-, -, -, -, -, hfee', -, hunits'⟩ := hqbounds
  simp only [List.append_assoc] at heq
  have h := List.append_cancel_left heq
  obtain ⟨hexecutors, h⟩ := key_append_inj h
  obtain ⟨hsequence, h⟩ := toBytes_append_inj hqr.sequence hpr.sequence h
  obtain ⟨hcommitment, h⟩ := key_append_inj h
  obtain ⟨hworld, h⟩ := key_append_inj h
  obtain ⟨hmessage, h⟩ := key_append_inj h
  obtain ⟨hexposure, h⟩ := toBytes_append_inj hqr.guaranteedExposureQ32 hpr.guaranteedExposureQ32 h
  obtain ⟨hfees, h⟩ := toBytes_append_inj (by omega) (by omega) h
  obtain ⟨hcompute, h⟩ := toBytes_append_inj (by omega) (by omega) h
  have hexpires := Buffer.toBytes_inj hqr.expiresSlot hpr.expiresSlot h
  refine ⟨?_, hexecutor.trans (hexecutors ▸ hexecutor'.symm)⟩
  cases p
  cases q
  simp_all

end ExecutorBid

end

/-! ## Lines of text -/

/-- A text up to a mark that it does not contain, before a piece that starts with the mark. -/
theorem text_append_inj {c : Char} {mark : String} {a b rest rest' : List Char}
    (hmark : mark.toList.head? = some c) (ha : c ∉ a) (hb : c ∉ b)
    (h : a ++ (mark.toList ++ rest) = b ++ (mark.toList ++ rest')) : a = b ∧ rest = rest' := by
  obtain ⟨tail, htail⟩ : ∃ tail, mark.toList = c :: tail := List.head?_eq_some_iff.mp hmark
  rw [htail] at h
  have hsplit : (a ++ [c]) ++ (tail ++ rest) = (b ++ [c]) ++ (tail ++ rest') := by simpa using h
  obtain ⟨hab, hrest⟩ := PrefixFreeOn.terminated c a b _ _ ha hb hsplit
  exact ⟨hab, List.append_cancel_left hrest⟩

theorem toList_toString (n : ℕ) : (toString n).toList = Nat.toDigits 10 n := by
  rw [Nat.toString_eq_repr, Nat.toList_repr]

theorem notMem_toString {c : Char} (hc : c.isDigit = false) (n : ℕ) : c ∉ (toString n).toList := by
  rw [toList_toString]
  intro hmem
  have hdigit := Nat.isDigit_of_mem_toDigits (by decide) le_rfl hmem
  exact absurd (hc.symm.trans hdigit) Bool.false_ne_true

theorem toString_inj {m n : ℕ} (h : (toString m).toList = (toString n).toList) : m = n := by
  rw [toList_toString, toList_toString] at h
  rw [← Nat.ofDigitChars_ten_toDigits (n := m), h, Nat.ofDigitChars_ten_toDigits]

/-- A number before a piece that does not start with a digit. -/
theorem number_append_inj {c : Char} {mark : String} {m n : ℕ} {rest rest' : List Char}
    (hmark : mark.toList.head? = some c) (hc : c.isDigit = false)
    (h : (toString m).toList ++ (mark.toList ++ rest) = (toString n).toList ++ (mark.toList ++ rest')) :
    m = n ∧ rest = rest' := by
  obtain ⟨hdigits, hrest⟩ := text_append_inj hmark (notMem_toString hc m) (notMem_toString hc n) h
  exact ⟨toString_inj hdigits, hrest⟩

/-- Joined lines with a line break behind them end with a line break each. -/
theorem lines_append (text : String) (texts : List String) (rest : List Char) :
    ("\n".intercalate (text :: texts)).toList ++ '\n' :: rest =
      (text :: texts).flatMap (fun text => text.toList ++ ['\n']) ++ rest := by
  induction texts generalizing text with
  | nil =>
    have hone : "\n".intercalate [text] = text := rfl
    simp [hone]
  | cons next texts ih =>
    -- the first two lines are joined first
    have hjoin : "\n".intercalate (text :: next :: texts) = "\n".intercalate ((text ++ "\n" ++ next) :: texts) := rfl
    rw [hjoin, ih]
    simp

/-! ## Documents -/

namespace Strategy.Document

variable {crates : StrategyCrates} {d : Document} {text : String}

/-- The line of a stock. -/
def legLine (l : Leg) : String := l.instrument ++ ": " ++ toString l.weightBps ++ " bps"

theorem notMem_of_all {p : Char → Bool} {c : Char} {s : List Char} (h : s.all p = true) (hc : p c = false) :
    c ∉ s := fun hmem => absurd (hc.symm.trans (List.all_eq_true.mp h c hmem)) Bool.false_ne_true

theorem colon_notMem {s : String} (h : validInstrument s) : ':' ∉ s.toList := notMem_of_all h.2.2 (by decide)

/-- The line of a stock tells the stock. -/
theorem prefixFree_legLine :
    PrefixFreeOn (fun l : Leg => validInstrument l.instrument) fun l => (legLine l).toList ++ ['\n'] := by
  intro a b rest rest' ha hb h
  simp only [legLine, String.toList_append, List.append_assoc] at h
  obtain ⟨hinstrument, h⟩ := text_append_inj (by decide) (colon_notMem ha) (colon_notMem hb) h
  obtain ⟨hweight, h⟩ := number_append_inj (c := ' ') (by decide) (by decide) h
  have hrest := List.append_cancel_left h
  cases a
  cases b
  simp_all [String.toList_inj]

theorem newline_notMem_of_hex {s : String} {n : ℕ} (h : HexField s n) : '\n' ∉ s.toList :=
  notMem_of_all h.2.1 (by decide)

theorem newline_notMem_of_text {s : String} {max : ℕ} {empty : Bool} (h : Text s max empty) :
    '\n' ∉ s.toList := by
  intro hmem
  exact absurd (h.2.2.2.2 _ hmem).1 (by decide)

/-- No stock is called like the line of the cash. -/
theorem legLine_ne_cash {l : Leg} (h : validInstrument l.instrument) (rest rest' : List Char) :
    ((legLine l).toList ++ ['\n']) ++ rest ≠ "Cash: ".toList ++ rest' := by
  intro heq
  have hcash : "Cash: ".toList = "Cash".toList ++ ": ".toList := by decide
  rw [hcash] at heq
  simp only [legLine, String.toList_append, List.append_assoc] at heq
  obtain ⟨hname, -⟩ := text_append_inj (by decide) (colon_notMem h) (by decide) heq
  have hlower : ("Cash".toList.all fun c => c.isUpper || c.isDigit || c = '.') = false := by decide
  have hupper := h.2.2
  rw [hname, hlower] at hupper
  exact absurd hupper Bool.false_ne_true

/-- The text of a valid document, piece by piece. -/
def pieces (d : Document) : List Char :=
  "XTXC Strategy Publication\nNetwork: solana:mainnet\nCreator: ".toList ++ (d.creator.toList ++
  ("\nStrategy nonce: ".toList ++ (d.nonce.toList ++
  ("\nVersion: ".toList ++ ((toString d.version).toList ++
  ("\nPrevious version: ".toList ++ ((d.previousVersionHash.getD "none").toList ++
  ("\nCatalog: ".toList ++ (d.catalogRevision.toList ++
  ("\nName: ".toList ++ (d.name.toList ++
  ("\nDescription: ".toList ++ (d.description.toList ++
  ("\n".toList ++ (d.legs.flatMap (fun l => (legLine l).toList ++ ['\n']) ++
  ("Cash: ".toList ++ ((toString d.cashWeightBps).toList ++
  (" bps\nCreator fee: ".toList ++ ((toString d.creatorFeeBps).toList ++
  (" bps of new profits\nIssued at: ".toList ++ ((toString d.issuedAt).toList ++
  ("\nExpires at: ".toList ++ ((toString d.expiresAt).toList ++
  "\nPublish composition only. No trade, transfer or spending permission.".toList)))))))))))))))))))))))

/-- The lines of the stocks of a valid document. -/
theorem legLines_append (h : d.legs ≠ []) (rest : List Char) :
    ("\n".intercalate (d.legs.map legLine)).toList ++ '\n' :: rest =
      d.legs.flatMap (fun l => (legLine l).toList ++ ['\n']) ++ rest := by
  obtain ⟨l, legs, hlegs⟩ := List.exists_cons_of_ne_nil h
  rw [hlegs, List.map_cons, lines_append, ← List.map_cons, List.flatMap_map]

theorem message_eq_ok (h : d.message crates = .ok text) :
    d.validate crates = .ok () ∧ text.toList = d.pieces := by
  have hlegLine : (fun l : Leg => l.instrument ++ ": " ++ toString l.weightBps ++ " bps") = legLine := rfl
  simp only [message, bind_eq_ok, Except.ok.injEq, hlegLine] at h
  obtain ⟨_, hvalid, rfl⟩ := h
  refine ⟨hvalid, ?_⟩
  obtain ⟨-, hbounds, -⟩ := validate_eq_ok.mp hvalid
  simp only [OutOfBounds, not_or, not_not] at hbounds
  obtain ⟨-, -, -, -, -, hcount, -⟩ := hbounds
  have hlegs : d.legs ≠ [] := List.ne_nil_of_length_pos (Nat.lt_of_lt_of_le Nat.two_pos hcount.1)
  have hcash : "\nCash: ".toList = '\n' :: "Cash: ".toList := by decide
  simp only [String.toList_append, List.append_assoc]
  rw [hcash, List.cons_append, legLines_append hlegs]
  unfold pieces
  rfl

/-- The text of the previous version: absent on the first version, and 64 digits on the others. -/
theorem previous_inj {s t : Option String} (hs : ∀ x ∈ s, HexField x 64) (ht : ∀ x ∈ t, HexField x 64)
    (h : (s.getD "none").toList = (t.getD "none").toList) : s = t := by
  have hnone : "none".utf8ByteSize = 4 := by decide
  rw [String.toList_inj] at h
  cases s with
  | none =>
    cases t with
    | none => rfl
    | some y =>
      have hlength := (ht y rfl).1
      simp only [Option.getD_none, Option.getD_some] at h
      rw [← h, hnone] at hlength
      exact absurd hlength (by decide)
  | some x =>
    cases t with
    | none =>
      have hlength := (hs x rfl).1
      simp only [Option.getD_none, Option.getD_some] at h
      rw [h, hnone] at hlength
      exact absurd hlength (by decide)
    | some y => exact congrArg some h

theorem newline_notMem_previous {s : Option String} (hs : ∀ x ∈ s, HexField x 64) :
    '\n' ∉ (s.getD "none").toList := by
  cases s with
  | none => decide
  | some x => exact newline_notMem_of_hex (hs x rfl)

/-- The message of a strategy tells the document, whatever its name and its description say. -/
theorem message_inj (hcrates : ∀ key, '\n' ∉ (crates.encode58 key).toList) {d' : Document}
    (h : d.message crates = .ok text) (h' : d'.message crates = .ok text) : d = d' := by
  obtain ⟨hvalid, htext⟩ := message_eq_ok h
  obtain ⟨hvalid', htext'⟩ := message_eq_ok h'
  obtain ⟨⟨key, -, hcreator, -⟩, hbounds, hlegs, -, -⟩ := validate_eq_ok.mp hvalid
  obtain ⟨⟨key', -, hcreator', -⟩, hbounds', hlegs', -, -⟩ := validate_eq_ok.mp hvalid'
  simp only [OutOfBounds, not_or, not_not, not_exists, not_and] at hbounds hbounds'
  obtain ⟨hnonce, hcatalog, -, hname, hdescription, -, -, -, -, -, -, -, hprevious⟩ := hbounds
  obtain ⟨hnonce', hcatalog', -, hname', hdescription', -, -, -, -, -, -, -, hprevious'⟩ := hbounds'
  have heq : d.pieces = d'.pieces := htext.symm.trans htext'
  unfold pieces at heq
  obtain ⟨hcreators, heq⟩ := text_append_inj (by decide) (hcreator ▸ hcrates key) (hcreator' ▸ hcrates key')
    (List.append_cancel_left heq)
  obtain ⟨hnonces, heq⟩ := text_append_inj (by decide) (newline_notMem_of_hex hnonce)
    (newline_notMem_of_hex hnonce') heq
  obtain ⟨hversions, heq⟩ := number_append_inj (c := '\n') (by decide) (by decide) heq
  obtain ⟨htexts, heq⟩ := text_append_inj (by decide) (newline_notMem_previous hprevious)
    (newline_notMem_previous hprevious') heq
  obtain ⟨hcatalogs, heq⟩ := text_append_inj (by decide) (newline_notMem_of_hex hcatalog)
    (newline_notMem_of_hex hcatalog') heq
  obtain ⟨hnames, heq⟩ := text_append_inj (by decide) (newline_notMem_of_text hname)
    (newline_notMem_of_text hname') heq
  obtain ⟨hdescriptions, heq⟩ := text_append_inj (by decide) (newline_notMem_of_text hdescription)
    (newline_notMem_of_text hdescription') heq
  -- the stocks end where the line of the cash begins
  obtain ⟨hstocks, heq⟩ := prefixFree_legLine.flatMap_closed (fun l text text' hl => legLine_ne_cash hl text text')
    (fun l hl => (hlegs l hl).1) (fun l hl => (hlegs' l hl).1) heq
  obtain ⟨hcash, heq⟩ := number_append_inj (c := ' ') (by decide) (by decide) heq
  obtain ⟨hfees, heq⟩ := number_append_inj (c := ' ') (by decide) (by decide) heq
  obtain ⟨hissued, heq⟩ := number_append_inj (c := '\n') (by decide) (by decide) heq
  have hexpires := toString_inj (List.append_cancel_right heq)
  have hversion := previous_inj hprevious hprevious' htexts
  rw [String.toList_inj] at hcreators hnonces hcatalogs hnames hdescriptions
  cases d
  cases d'
  simp_all only

end Strategy.Document

/-! ## Preimages -/

open Strategy StrategyStore

/-- The bytes of a bid do not tell its signature, which signs them. -/
theorem signingBytes_omits_signature : ∃ (p q : ExecutorBid) (bytes : List UInt8),
    p.InRange ∧ q.InRange ∧ p.signingBytes onesCrates = .ok bytes ∧ q.signingBytes onesCrates = .ok bytes ∧
      ¬p.Same onesCrates q := by
  have hok : ∃ bytes, (exampleBid 1).signingBytes onesCrates = .ok bytes := exists_of_isOk (by decide)
  obtain ⟨bytes, hbytes⟩ := hok
  have hrange : (exampleBid 1).InRange := ⟨by decide, by decide, by decide⟩
  refine ⟨exampleBid 1, { exampleBid 1 with signature := "" }, bytes, hrange,
    ⟨hrange.sequence, hrange.guaranteedExposureQ32, hrange.expiresSlot⟩, hbytes, hbytes, fun hsame => ?_⟩
  have hsignature : "" = (exampleBid 1).signature := congrArg ExecutorBid.signature hsame.1
  exact absurd hsignature (by decide)

/-- **Signed preimages are injective.** Products, intents and bids with the same hashed bytes agree up to the
spelling of their keys, bids also up to their signature, and documents with the same message are equal. -/
theorem signed_preimages_injective (crates : MeshCrates) (strategies : StrategyCrates)
    -- base58 has no line breaks
    (hstrategies : ∀ key, '\n' ∉ (strategies.encode58 key).toList) :
    (∀ (p q : ProductIdentity) (bytes : List UInt8), p.idBytes crates = .ok bytes →
      q.idBytes crates = .ok bytes → p.Same crates q) ∧
    (∀ (p q : FrozenIntent) (slot slot' : ℕ) (bytes : List UInt8), p.InRange → q.InRange →
      p.preimage crates slot = .ok bytes → q.preimage crates slot' = .ok bytes → p.Same crates q) ∧
    (∀ (p q : ExecutorBid) (bytes : List UInt8), p.InRange → q.InRange → p.signingBytes crates = .ok bytes →
      q.signingBytes crates = .ok bytes → p.SameStatement crates q) ∧
    ∀ (d d' : Document) (text : String), d.message strategies = .ok text → d'.message strategies = .ok text →
      d = d' :=
  ⟨fun _ _ _ hp hq => ProductIdentity.idBytes_inj hp hq,
    fun _ _ _ _ _ hpr hqr hp hq => FrozenIntent.preimage_inj hpr hqr hp hq,
    fun _ _ _ hpr hqr hp hq => ExecutorBid.signingBytes_inj hpr hqr hp hq,
    fun _ _ _ h h' => Document.message_inj hstrategies h h'⟩

/-- The example's bid with another signature is the same statement. -/
theorem signed_preimages_injective_example :
    (exampleBid 1).SameStatement onesCrates { exampleBid 1 with signature := "" } := by
  have hnewline : ∀ key, '\n' ∉ (exampleStrategyCrates.encode58 key).toList := by
    intro key
    have hcreator : '\n' ∉ exampleDocument.creator.toList := by decide
    exact hcreator
  have hok : ∃ bytes, (exampleBid 1).signingBytes onesCrates = .ok bytes := exists_of_isOk (by decide)
  obtain ⟨bytes, hbytes⟩ := hok
  have hrange : (exampleBid 1).InRange := ⟨by decide, by decide, by decide⟩
  exact (signed_preimages_injective onesCrates exampleStrategyCrates hnewline).2.2.1 _ _ bytes hrange
    ⟨hrange.sequence, hrange.guaranteedExposureQ32, hrange.expiresSlot⟩ hbytes hbytes

end StockMesh.Host
