import StockMesh.Foundation.Apportionment
import StockMesh.Foundation.Frontier
import StockMesh.Foundation.Table
import StockMesh.Host.StrategyRuns
import StockMesh.Journal.Progress
import Mathlib.Data.List.Sort
import Mathlib.Data.String.Basic

/-! # The catalog of products

A catalog lists products by their identifiers. No two of its products are the same asset of a chain, where
the addresses of an EVM chain are compared in lower case (`Product.identity`). `Catalog.merge` adds the
products of an issuer's list to a local catalog and keeps what was admitted locally.

A merge looks for the admitted product of an asset, and compares products of one identifier, by the text
of the address. So it succeeds only for the one spelling that the local catalog has. -/

namespace StockMesh.Host

open Frontier
open Journal (refuse_eq_ok validInstrument parseU64)
open Strategy (HexField hexKey)

/-! ## Products -/

/-- `AssetKind`. -/
inductive AssetKind
  | equity
  | listedEtf
  | preIpo
  | unclassified
  deriving DecidableEq

/-- `ExecutionClass`. -/
inductive ExecutionClass
  | solanaNative
  | evmNative
  | issuerAsync
  deriving DecidableEq

/-- Who vouches for a product (`SourceKind`). -/
inductive SourceKind
  | localAdmission
  | issuerCatalog
  deriving DecidableEq

/-- A product of an issuer on a chain (`Product`). -/
structure Product where
  productId : String
  instrument : String
  name : String
  kind : AssetKind
  issuer : String
  chain : String
  address : String
  executionClass : ExecutionClass
  sourceKind : SourceKind
  sourceUrl : String
  sourceSha256 : String
  observedAt : ℕ
  issuerTradable : Option Bool
  fractional : Option Bool
  rightsHash : Option String
  deriving DecidableEq

/-- The parts of a URL that a product is checked for. -/
structure SourceUrl where
  scheme : String
  username : String
  password : Option String
  query : Option String
  fragment : Option String

/-- Functions of other crates. -/
structure CatalogCrates where
  /-- `reqwest::Url::parse`. -/
  parseUrl : String → Option SourceUrl
  /-- `bs58::decode(value).into_vec()`. -/
  decode58 : String → Option (List UInt8)
  /-- `serde_json::to_vec` of products. -/
  toVec : List Product → List UInt8
  /-- `Sha256::digest`. -/
  sha256 : List UInt8 → Key

/-- Most products of a catalog (`MAX_PRODUCTS`). -/
def maxProducts : ℕ := 10000

/-- `str::strip_prefix`. -/
def stripStart (start s : String) : Option String :=
  if start.toList <+: s.toList then some (String.ofList (s.toList.drop start.toList.length)) else none

/-- `to_ascii_lowercase`. -/
def lowerCase (s : String) : String := String.ofList (s.toList.map Char.toLower)

/-- `u8::is_ascii_hexdigit`. -/
def isAsciiHexDigit (c : Char) : Bool := c.isDigit || ('a' ≤ c && c ≤ 'f') || ('A' ≤ c && c ≤ 'F')

/-- A character of the identifier of a product. -/
def isIdChar (c : Char) : Bool := c.isAlphanum || c == '_' || c == '-' || c == ':' || c == '.'

namespace Product

/-- The checks that hold for products of every chain. -/
def Described (p : Product) (url : SourceUrl) : Prop :=
  p.productId.toList ≠ [] ∧ p.productId.toList.length ≤ 128 ∧ p.productId.toList.all isIdChar ∧
    validInstrument p.instrument ∧ p.name.toList ≠ [] ∧ p.name.utf8ByteSize ≤ 256 ∧
    p.issuer.toList ≠ [] ∧ p.issuer.utf8ByteSize ≤ 128 ∧ p.observedAt ≠ 0 ∧ url.scheme = "https" ∧
    url.username.toList = [] ∧ url.password = none ∧ url.query = none ∧ url.fragment = none ∧
    HexField p.sourceSha256 64 ∧ ∀ hash ∈ p.rightsHash, HexField hash 64

/-- An asset of an EVM chain. Its address is made of ASCII characters. -/
def EvmAsset (p : Product) (id : String) : Prop :=
  ((parseU64 id).filter (0 < ·)).map toString = some id ∧ p.address.toList.length = 42 ∧
    ['0', 'x'] <+: p.address.toList ∧ (p.address.toList.drop 2).all isAsciiHexDigit ∧
    (p.address.toList.drop 2).all (· = '0') = false ∧ p.executionClass ≠ .solanaNative

/-- An asset of a Solana chain. -/
def SolanaAsset (crates : CatalogCrates) (p : Product) (id : String) : Prop :=
  (∃ v ∈ crates.decode58 id, v ≠ [] ∧ v.length ≤ 32) ∧
    (∃ v ∈ crates.decode58 p.address, v.length = 32 ∧ v.all (· = 0) = false) ∧
    p.executionClass ≠ .evmNative

instance (p : Product) (url : SourceUrl) : Decidable (p.Described url) :=
  have : Decidable (∀ hash ∈ p.rightsHash, HexField hash 64) := Option.decidableForallMem _
  inferInstanceAs (Decidable (_ ∧ _ ∧ _ ∧ _ ∧ _ ∧ _ ∧ _ ∧ _ ∧ _ ∧ _ ∧ _ ∧ _ ∧ _ ∧ _ ∧ _ ∧ _))

instance (p : Product) (id : String) : Decidable (p.EvmAsset id) :=
  inferInstanceAs (Decidable (_ ∧ _ ∧ _ ∧ _ ∧ _ ∧ _))

instance (crates : CatalogCrates) (p : Product) (id : String) : Decidable (p.SolanaAsset crates id) :=
  have (x : Option (List UInt8)) (q : List UInt8 → Prop) [DecidablePred q] : Decidable (∃ v ∈ x, q v) :=
    Option.decidableExistsMem _
  inferInstanceAs (Decidable (_ ∧ _ ∧ _))

/-- `Product::validate`. -/
def validate (crates : CatalogCrates) (p : Product) : Answer Unit := do
  let url ← present (crates.parseUrl p.sourceUrl) "catalog source URL"
  refuse (¬p.Described url) "catalog product identity/provenance bounds"
  match stripStart "eip155:" p.chain with
  | some id => refuse (¬p.EvmAsset id) "catalog EVM asset identity"
  | none =>
    match stripStart "solana:" p.chain with
    | some id => refuse (¬p.SolanaAsset crates id) "catalog Solana asset identity"
    | none => .error "catalog chain namespace unsupported"

/-- The product is on an EVM chain. -/
def OnEvm (p : Product) : Prop := "eip155:".toList <+: p.chain.toList

instance (p : Product) : Decidable p.OnEvm := inferInstanceAs (Decidable (_ <+: _))

/-- The asset that a product is. -/
def identity (p : Product) : String × String := (p.chain, if p.OnEvm then lowerCase p.address else p.address)

end Product

/-! ## Catalogs -/

/-- A catalog. -/
structure Catalog where
  revision : String := ""
  products : List Product := []
  deriving DecidableEq

namespace Catalog

/-- One product of the loop of `new`. -/
def check (crates : CatalogCrates) (state : List String × List (String × String)) (p : Product) :
    Answer (List String × List (String × String)) := do
  p.validate crates
  refuse (p.productId ∈ state.1) "catalog duplicate product ID"
  refuse (p.identity ∈ state.2) "catalog duplicate chain asset"
  .ok (p.productId :: state.1, p.identity :: state.2)

/-- Products in the order of their identifiers. -/
def sortProducts (products : List Product) : List Product :=
  products.insertionSort fun a b => a.productId ≤ b.productId

/-- `Catalog::new`. -/
def new (crates : CatalogCrates) (products : List Product) : Answer Catalog := do
  refuse (maxProducts < products.length) "catalog product limit"
  let products := sortProducts products
  let _ ← products.foldlM (check crates) ([], [])
  .ok ⟨hexKey (crates.sha256 (crates.toVec products)), products⟩

/-- A product that was admitted locally for the asset of another one, by the text of the address. -/
def Admits (l p : Product) : Prop :=
  l.sourceKind = .localAdmission ∧ l.chain = p.chain ∧ l.address = p.address

instance (l p : Product) : Decidable (Admits l p) := inferInstanceAs (Decidable (_ ∧ _ ∧ _))

/-- One product of the loop of `merge`. -/
def mergeProduct (products : Table Product.productId) (p : Product) : Answer (Table Product.productId) := do
  refuse (p.sourceKind ≠ .issuerCatalog) "external catalog cannot declare local admission"
  match products.rows.find? (Admits · p) with
  | some l => do
    refuse (l.instrument ≠ p.instrument ∨ l.issuer ≠ p.issuer) "issuer catalog conflicts with admitted identity"
    -- the admitted product keeps its identifier
    .ok products
  | none =>
    match products.find p.productId with
    | some existing => do
      refuse (existing ≠ p) "catalog import overrides local admission"
      .ok products
    | none => .ok (products.insert p)

/-- `Catalog::merge`. -/
def merge (crates : CatalogCrates) (c imported : Catalog) : Answer Catalog := do
  let products ← imported.products.foldlM mergeProduct (Table.empty.insertAll c.products)
  new crates products.rows

/-! ## Making a catalog -/

variable {crates : CatalogCrates} {products : List Product}

/-- Products that a catalog may list. -/
structure Listable (crates : CatalogCrates) (products : List Product) : Prop where
  valid : ∀ p ∈ products, p.validate crates = .ok ()
  ids : (products.map Product.productId).Nodup
  identities : (products.map Product.identity).Nodup

/-- The loop goes through products that may be listed. -/
theorem foldlM_check_eq_ok {state : List String × List (String × String)} :
    products.foldlM (check crates) ([], []) = .ok state ↔ Listable crates products ∧
      state = ((products.map Product.productId).reverse, (products.map Product.identity).reverse) := by
  refine foldlM_eq_ok_iff (Listable crates) (fun done =>
    ((done.map Product.productId).reverse, (done.map Product.identity).reverse)) rfl
    ⟨by simp, by simp, by simp⟩ ?_ ?_
  · rintro done p ⟨hvalid, hids, hidentities⟩
    rw [List.map_append] at hids hidentities
    exact ⟨fun q hq => hvalid q (by simp [hq]), (List.nodup_append.mp hids).1,
      (List.nodup_append.mp hidentities).1⟩
  · intro done p state _ hdone
    have hlast : Listable crates (done ++ [p]) ↔ p.validate crates = .ok () ∧
        p.productId ∉ done.map Product.productId ∧ p.identity ∉ done.map Product.identity := by
      constructor
      · rintro ⟨hvalid, hids, hidentities⟩
        rw [List.map_append, List.map_cons, List.map_nil, ← List.concat_eq_append,
          List.nodup_concat] at hids hidentities
        exact ⟨hvalid p (by simp), hids.1, hidentities.1⟩
      · rintro ⟨hvalid, hid, hidentity⟩
        refine ⟨fun q hq => ?_, ?_, ?_⟩
        · obtain hq | hq := List.mem_append.mp hq
          · exact hdone.valid q hq
          · rwa [List.mem_singleton.mp hq]
        · rw [List.map_append, List.map_cons, List.map_nil, ← List.concat_eq_append, List.nodup_concat]
          exact ⟨hid, hdone.ids⟩
        · rw [List.map_append, List.map_cons, List.map_nil, ← List.concat_eq_append, List.nodup_concat]
          exact ⟨hidentity, hdone.identities⟩
    rw [hlast, check]
    simp only [bind_eq_ok, refuse_eq_ok, List.mem_reverse, List.map_append, List.map_cons, List.map_nil,
      List.reverse_append, List.reverse_cons, List.reverse_nil, List.nil_append, List.cons_append]
    constructor
    · rintro ⟨_, hvalid, _, hid, _, hidentity, hend⟩
      exact ⟨⟨hvalid, hid, hidentity⟩, (Except.ok.inj hend).symm⟩
    · rintro ⟨⟨hvalid, hid, hidentity⟩, rfl⟩
      exact ⟨_, hvalid, (), hid, (), hidentity, rfl⟩

theorem sortProducts_perm (products : List Product) : (sortProducts products).Perm products :=
  List.perm_insertionSort _ _

/-- What may be listed does not depend on the order. -/
theorem Listable.perm {products' : List Product} (h : Listable crates products)
    (hperm : products.Perm products') : Listable crates products' where
  valid := fun p hp => h.valid p (hperm.mem_iff.mpr hp)
  ids := (hperm.map _).nodup_iff.mp h.ids
  identities := (hperm.map _).nodup_iff.mp h.identities

/-- The catalog of some products. -/
def of (crates : CatalogCrates) (products : List Product) : Catalog :=
  ⟨hexKey (crates.sha256 (crates.toVec (sortProducts products))), sortProducts products⟩

/-- Few enough products that may be listed make a catalog. -/
theorem new_eq_ok {c : Catalog} : new crates products = .ok c ↔
    products.length ≤ maxProducts ∧ Listable crates products ∧ c = of crates products := by
  rw [new]
  simp only [bind_eq_ok, refuse_eq_ok, foldlM_check_eq_ok, Nat.not_lt]
  have hperm := sortProducts_perm products
  constructor
  · rintro ⟨_, hlength, _, ⟨hlistable, -⟩, hend⟩
    exact ⟨hlength, hlistable.perm hperm, (Except.ok.inj hend).symm⟩
  · rintro ⟨hlength, hlistable, rfl⟩
    exact ⟨(), hlength, _, ⟨hlistable.perm hperm.symm, rfl⟩, rfl⟩

/-- A catalog as the code makes it: the empty one, or one from `new`. -/
def Built (crates : CatalogCrates) (c : Catalog) : Prop := c = {} ∨ ∃ products, new crates products = .ok c

/-- The products of a catalog. -/
structure Sound (crates : CatalogCrates) (products : List Product) : Prop extends Listable crates products where
  length_le : products.length ≤ maxProducts
  sorted : products.Pairwise fun a b => a.productId < b.productId

theorem sortProducts_pairwise (h : (products.map Product.productId).Nodup) :
    (sortProducts products).Pairwise fun a b => a.productId < b.productId :=
  pairwise_lt_insertionSort h

/-- Products in their order stay as they are. -/
theorem sortProducts_of_sorted (h : products.Pairwise fun a b => a.productId < b.productId) :
    sortProducts products = products := by
  have : Std.Total fun a b : Product => a.productId ≤ b.productId := ⟨fun a b => le_total _ _⟩
  have : IsTrans Product fun a b => a.productId ≤ b.productId := ⟨fun _ _ _ => le_trans⟩
  exact (h.imp fun h => h.le).insertionSort_eq

theorem Built.sound {c : Catalog} (h : c.Built crates) : Sound crates c.products := by
  obtain rfl | ⟨products, h⟩ := h
  · exact ⟨⟨by simp, by simp, by simp⟩, by simp, by simp⟩
  · obtain ⟨hlength, hlistable, rfl⟩ := new_eq_ok.mp h
    have hperm := sortProducts_perm products
    exact ⟨hlistable.perm hperm.symm, hperm.length_eq.trans_le hlength, sortProducts_pairwise hlistable.ids⟩

/-- A catalog is the catalog of its own products. -/
theorem of_products_of_new {c : Catalog} (h : new crates products = .ok c) : of crates c.products = c := by
  obtain ⟨-, hlistable, rfl⟩ := new_eq_ok.mp h
  have hsort : sortProducts (sortProducts products) = sortProducts products :=
    sortProducts_of_sorted (sortProducts_pairwise hlistable.ids)
  rw [of, of, hsort]

/-- The table of the products. -/
def Sound.table (h : Sound crates products) : Table Product.productId := ⟨products, h.sorted⟩

theorem Sound.insertAll_products (h : Sound crates products) :
    Table.empty.insertAll products = h.table := h.table.insertAll_rows

/-- Products of one asset are one product. -/
theorem Listable.eq_of_identity (h : Listable crates products) {p q : Product} (hp : p ∈ products)
    (hq : q ∈ products) (heq : p.identity = q.identity) : p = q :=
  List.inj_on_of_nodup_map h.identities hp hq heq

/-- Products of one identifier are one product. -/
theorem Listable.eq_of_productId (h : Listable crates products) {p q : Product} (hp : p ∈ products)
    (hq : q ∈ products) (heq : p.productId = q.productId) : p = q :=
  List.inj_on_of_nodup_map h.ids hp hq heq

/-- The identity is the chain and the address up to the spelling. -/
theorem identity_eq_of_address {p q : Product} (hchain : p.chain = q.chain) (haddress : p.address = q.address) :
    p.identity = q.identity := by
  cases p
  cases q
  cases hchain
  cases haddress
  rfl

theorem chain_eq_of_identity {p q : Product} (h : p.identity = q.identity) : p.chain = q.chain :=
  congrArg Prod.fst h

end Catalog

end StockMesh.Host
