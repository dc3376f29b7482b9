import StockMesh.Host.Catalog
import Mathlib.Data.List.Forall2

/-! # What a merge keeps

A merge goes through exactly if every imported product joins the local catalog (`Joins`), and then adds the
products of assets that the local catalog does not have. So it keeps what was admitted, and merging the
same list once more changes nothing. Whether it goes through depends on the spelling of an address wherever
the list has an asset of the local catalog whose address has a letter. -/

namespace StockMesh.Host.Catalog

open Frontier
open Journal (refuse_eq_ok utf8)

variable {crates : CatalogCrates} {products : List Product}

/-! ## One product -/

/-- A product goes through the loop over local products. -/
structure Accepts (products : List Product) (p : Product) : Prop where
  external : p.sourceKind = .issuerCatalog
  admitted : ∀ l ∈ products, Admits l p → l.instrument = p.instrument ∧ l.issuer = p.issuer
  same : (∀ l ∈ products, ¬Admits l p) → ∀ q ∈ products, q.productId = p.productId → q = p

/-- A product is added to local products. -/
def IsNew (products : List Product) (p : Product) : Prop :=
  (∀ l ∈ products, ¬Admits l p) ∧ ∀ q ∈ products, q.productId ≠ p.productId

instance (products : List Product) (p : Product) : Decidable (IsNew products p) :=
  inferInstanceAs (Decidable (_ ∧ _))

/-- Two admitted products of one asset are one product. -/
theorem Admits.eq {l l' p : Product} (h : Listable crates products) (hl : l ∈ products) (hl' : l' ∈ products)
    (hadmits : Admits l p) (hadmits' : Admits l' p) : l = l' :=
  h.eq_of_identity hl hl' (identity_eq_of_address (hadmits.2.1.trans hadmits'.2.1.symm)
    (hadmits.2.2.trans hadmits'.2.2.symm))

/-- One step of the loop, at a table with the admitted products and the row of the identifier that the
local products have. -/
theorem mergeProduct_eq_ok {table table' : Table Product.productId} {p : Product}
    (h : Listable crates products)
    (hadmitted : ∀ l, l.sourceKind = .localAdmission → (l ∈ table ↔ l ∈ products))
    (hrow : ∀ q, q.productId = p.productId → (q ∈ table ↔ q ∈ products)) :
    mergeProduct table p = .ok table' ↔
      Accepts products p ∧ table' = if IsNew products p then table.insert p else table := by
  rw [mergeProduct]
  simp only [bind_eq_ok, refuse_eq_ok, not_not]
  cases hfind : table.rows.find? (Admits · p) with
  | some l =>
    have hadmits : Admits l p := by simpa using List.find?_some hfind
    have hl : l ∈ products := (hadmitted l hadmits.1).mp (List.mem_of_find?_eq_some hfind)
    have hnew : ¬IsNew products p := fun hnew => hnew.1 l hl hadmits
    simp only [if_neg hnew, bind_eq_ok, refuse_eq_ok, not_or, not_not]
    constructor
    · rintro ⟨_, hkind, _, hsame, hend⟩
      refine ⟨⟨hkind, fun l' hl' hadmits' => ?_, fun hnone => absurd hadmits (hnone l hl)⟩,
        (Except.ok.inj hend).symm⟩
      rwa [hadmits'.eq h hl' hl hadmits]
    · rintro ⟨haccepts, rfl⟩
      exact ⟨(), haccepts.external, (), haccepts.admitted l hl hadmits, rfl⟩
  | none =>
    have hnone : ∀ l ∈ products, ¬Admits l p := by
      intro l hl hadmits
      have hno := List.find?_eq_none.mp hfind l ((hadmitted l hadmits.1).mpr hl)
      exact hno (by simpa using hadmits)
    cases hid : table.find p.productId with
    | some existing =>
      obtain ⟨hmem, hkey⟩ := Table.find_eq_some.mp hid
      have hexisting : existing ∈ products := (hrow existing hkey).mp hmem
      have hnew : ¬IsNew products p := fun hnew => hnew.2 existing hexisting hkey
      simp only [if_neg hnew, bind_eq_ok, refuse_eq_ok, not_not]
      constructor
      · rintro ⟨_, hkind, _, rfl, hend⟩
        exact ⟨⟨hkind, fun l hl hadmits => absurd hadmits (hnone l hl),
          fun _ q hq hqid => h.eq_of_productId hq hexisting hqid⟩, (Except.ok.inj hend).symm⟩
      · rintro ⟨haccepts, rfl⟩
        exact ⟨(), haccepts.external, (), haccepts.same hnone existing hexisting hkey, rfl⟩
    | none =>
      have hids : ∀ q ∈ products, q.productId ≠ p.productId := fun q hq hqid =>
        Table.find_eq_none.mp hid q ((hrow q hqid).mpr hq) hqid
      simp only [if_pos (show IsNew products p from ⟨hnone, hids⟩)]
      constructor
      · rintro ⟨_, hkind, hend⟩
        exact ⟨⟨hkind, fun l hl hadmits => absurd hadmits (hnone l hl),
          fun _ q hq hqid => absurd hqid (hids q hq)⟩, (Except.ok.inj hend).symm⟩
      · rintro ⟨haccepts, rfl⟩
        exact ⟨(), haccepts.external, rfl⟩

/-! ## The loop -/

variable {imported : List Product}

/-- Products with different identifiers that go through the loop one by one. -/
structure AcceptsAll (products imported : List Product) : Prop where
  ids : (imported.map Product.productId).Nodup
  accepts : ∀ p ∈ imported, Accepts products p

theorem acceptsAll_concat {p : Product} : AcceptsAll products (imported ++ [p]) ↔
    AcceptsAll products imported ∧ p.productId ∉ imported.map Product.productId ∧ Accepts products p := by
  constructor
  · rintro ⟨hids, haccepts⟩
    rw [List.map_append, List.map_cons, List.map_nil, ← List.concat_eq_append, List.nodup_concat] at hids
    exact ⟨⟨hids.2, fun q hq => haccepts q (by simp [hq])⟩, hids.1, haccepts p (by simp)⟩
  · rintro ⟨⟨hids, haccepts⟩, hid, hp⟩
    refine ⟨?_, fun q hq => ?_⟩
    · rw [List.map_append, List.map_cons, List.map_nil, ← List.concat_eq_append, List.nodup_concat]
      exact ⟨hid, hids⟩
    · obtain hq | hq := List.mem_append.mp hq
      · exact haccepts q hq
      · rwa [List.mem_singleton.mp hq]

/-- The table after some imported products. -/
def Sound.added (h : Sound crates products) (imported : List Product) : Table Product.productId :=
  h.table.insertAll (imported.filter (IsNew products))

theorem Sound.added_concat (h : Sound crates products) (imported : List Product) (p : Product) :
    h.added (imported ++ [p]) =
      if IsNew products p then (h.added imported).insert p else h.added imported := by
  unfold Sound.added
  rw [List.filter_append, Table.insertAll_append]
  by_cases hnew : IsNew products p
  · rw [if_pos hnew, List.filter_cons_of_pos (by simpa using hnew), List.filter_nil]
    rfl
  · rw [if_neg hnew, List.filter_cons_of_neg (by simpa using hnew), List.filter_nil]
    rfl

/-- The rows are the local products and the new ones, up to order. -/
theorem Sound.rows_added_perm (h : Sound crates products) (hids : (imported.map Product.productId).Nodup) :
    (h.added imported).rows.Perm (products ++ imported.filter (IsNew products)) := by
  refine Table.rows_insertAll_perm (fun p hp => ?_) (hids.sublist (List.filter_sublist.map _))
  have hnew : IsNew products p := by simpa using (List.mem_filter.mp hp).2
  exact Table.find_eq_none.mpr hnew.2

theorem Sound.mem_added (h : Sound crates products) (hids : (imported.map Product.productId).Nodup)
    {q : Product} : q ∈ h.added imported ↔ q ∈ products ∨ q ∈ imported ∧ IsNew products q := by
  rw [← Table.mem_rows, (h.rows_added_perm hids).mem_iff, List.mem_append, List.mem_filter,
    decide_eq_true_eq]

/-- The loop goes through the products that are accepted one by one. -/
theorem foldlM_mergeProduct_eq_ok (h : Sound crates products)
    (hids : (imported.map Product.productId).Nodup) {table : Table Product.productId} :
    imported.foldlM mergeProduct h.table = .ok table ↔
      (∀ p ∈ imported, Accepts products p) ∧ table = h.added imported := by
  have hall : AcceptsAll products imported ↔ ∀ p ∈ imported, Accepts products p :=
    ⟨fun hall => hall.accepts, fun haccepts => ⟨hids, haccepts⟩⟩
  rw [← hall]
  refine foldlM_eq_ok_iff (AcceptsAll products) h.added rfl ⟨by simp, by simp⟩
    (fun _ _ hdone => (acceptsAll_concat.mp hdone).1) fun done p table hdone hgood => ?_
  have hid : p.productId ∉ done.map Product.productId := by
    have hnodup := hids.sublist (hdone.sublist.map Product.productId)
    rw [List.map_append, List.map_cons, List.map_nil, ← List.concat_eq_append, List.nodup_concat] at hnodup
    exact hnodup.1
  have hmem := fun q => @Sound.mem_added crates products done h hgood.ids q
  -- what was added is not admitted and has other identifiers
  rw [mergeProduct_eq_ok h.toListable, acceptsAll_concat, h.added_concat]
  · exact ⟨fun hp => ⟨⟨hgood, hid, hp.1⟩, hp.2⟩, fun hp => ⟨hp.1.2.2, hp.2⟩⟩
  · intro l hl
    rw [hmem]
    refine or_iff_left fun hnew => ?_
    have hkind := (hgood.accepts l hnew.1).external
    rw [hl] at hkind
    cases hkind
  · intro q hq
    rw [hmem]
    exact or_iff_left fun hnew => hid (List.mem_map.mpr ⟨q, hnew.1, hq⟩)

/-! ## Joining -/

/-- A product joins local products: it is the asset of an admitted product of the same instrument and
issuer, or it is listed already, or its asset and its identifier are new. Addresses are compared by their
text. -/
structure Joins (products : List Product) (p : Product) : Prop where
  external : p.sourceKind = .issuerCatalog
  address : ∀ q ∈ products, q.identity = p.identity → q.address = p.address
  admitted : ∀ q ∈ products, q.identity = p.identity → q.sourceKind = .localAdmission →
    q.instrument = p.instrument ∧ q.issuer = p.issuer
  listed : ∀ q ∈ products, q.identity = p.identity → q.sourceKind = .issuerCatalog → q = p
  fresh : (∀ q ∈ products, q.identity ≠ p.identity) → ∀ q ∈ products, q.productId ≠ p.productId

/-- The asset of a product is not among local products. -/
def IsFresh (products : List Product) (p : Product) : Prop := ∀ q ∈ products, q.identity ≠ p.identity

instance (products : List Product) (p : Product) : Decidable (IsFresh products p) :=
  inferInstanceAs (Decidable (∀ _ ∈ _, _))

theorem admits_of_identity {l p : Product} (hkind : l.sourceKind = .localAdmission)
    (h : l.identity = p.identity) (haddress : l.address = p.address) : Admits l p :=
  ⟨hkind, chain_eq_of_identity h, haddress⟩

theorem Admits.identity {l p : Product} (h : Admits l p) : l.identity = p.identity :=
  identity_eq_of_address h.2.1 h.2.2

/-- A product that joins is new exactly if its asset is. -/
theorem Joins.isNew_iff {p : Product} (h : Joins products p) : IsNew products p ↔ IsFresh products p := by
  constructor
  · rintro ⟨hadmits, hids⟩ q hq heq
    cases hkind : q.sourceKind with
    | localAdmission => exact hadmits q hq (admits_of_identity hkind heq (h.address q hq heq))
    | issuerCatalog => exact hids q hq (congrArg Product.productId (h.listed q hq heq hkind))
  · exact fun hfresh => ⟨fun l hl hadmits => hfresh l hl hadmits.identity, h.fresh hfresh⟩

/-- Products join exactly if the loop accepts them and the new ones are of new assets. -/
theorem joins_iff (h : Listable crates products) {p : Product} :
    Joins products p ↔ Accepts products p ∧ (IsNew products p → IsFresh products p) := by
  constructor
  · intro hjoins
    refine ⟨⟨hjoins.external, fun l hl hadmits => hjoins.admitted l hl hadmits.identity hadmits.1,
      fun hnone q hq hid => ?_⟩, hjoins.isNew_iff.mp⟩
    by_cases hfresh : IsFresh products p
    · exact absurd hid (hjoins.fresh hfresh q hq)
    · obtain ⟨r, hr, heq⟩ : ∃ r ∈ products, r.identity = p.identity := by simpa [IsFresh] using hfresh
      cases hkind : r.sourceKind with
      | localAdmission => exact absurd (admits_of_identity hkind heq (hjoins.address r hr heq)) (hnone r hr)
      | issuerCatalog =>
        obtain rfl := hjoins.listed r hr heq hkind
        exact h.eq_of_productId hq hr hid
  · rintro ⟨haccepts, hnew⟩
    -- the local product of an asset is admitted with the same text, or is the product itself
    have hpartner : ∀ q ∈ products, q.identity = p.identity → Admits q p ∨ q = p := by
      intro q hq heq
      by_cases hnone : ∀ l ∈ products, ¬Admits l p
      · have hold : ¬IsNew products p := fun hisNew => hnew hisNew q hq heq
        obtain ⟨r, hr, hid⟩ : ∃ r ∈ products, r.productId = p.productId := by
          by_contra hno
          exact hold ⟨hnone, fun r hr hid => hno ⟨r, hr, hid⟩⟩
        obtain rfl := haccepts.same hnone r hr hid
        exact .inr (h.eq_of_identity hq hr heq)
      · obtain ⟨l, hl, hadmits⟩ : ∃ l ∈ products, Admits l p := by simpa using hnone
        obtain rfl := h.eq_of_identity hq hl (heq.trans hadmits.identity.symm)
        exact .inl hadmits
    refine ⟨haccepts.external, fun q hq heq => ?_, fun q hq heq hkind => ?_, fun q hq heq hkind => ?_, ?_⟩
    · obtain hadmits | rfl := hpartner q hq heq
      · exact hadmits.2.2
      · rfl
    · obtain hadmits | rfl := hpartner q hq heq
      · exact haccepts.admitted q hq hadmits
      · exact ⟨rfl, rfl⟩
    · obtain hadmits | rfl := hpartner q hq heq
      · rw [hadmits.1] at hkind
        cases hkind
      · rfl
    · intro hfresh q hq hid
      have hnone : ∀ l ∈ products, ¬Admits l p := fun l hl hadmits => hfresh l hl hadmits.identity
      obtain rfl := haccepts.same hnone q hq hid
      exact hfresh q hq rfl

/-- The imported products of new assets. -/
def additions (products imported : List Product) : List Product := imported.filter (IsFresh products)

/-- Products in another order make the same catalog. -/
theorem of_perm {products' : List Product} (h : (products.map Product.productId).Nodup)
    (hperm : products.Perm products') : of crates products = of crates products' := by
  have hsort : sortProducts products = sortProducts products' := by
    have hsorted := sortProducts_pairwise h
    have hsorted' := sortProducts_pairwise ((hperm.map Product.productId).nodup_iff.mp h)
    refine List.Perm.eq_of_pairwise (fun a b _ _ hab hba => absurd hab hba.asymm) hsorted hsorted' ?_
    exact (sortProducts_perm products).trans (hperm.trans (sortProducts_perm products').symm)
  rw [of, of, hsort]

/-- The new products may be listed with the local ones if they are of new assets. -/
theorem listable_append_iff (h : Listable crates products) (h' : Listable crates imported) :
    Listable crates (products ++ imported.filter (IsNew products)) ↔
      ∀ p ∈ imported, IsNew products p → IsFresh products p := by
  have hmem : ∀ p, p ∈ imported.filter (IsNew products) ↔ p ∈ imported ∧ IsNew products p := by
    simp [List.mem_filter]
  constructor
  · intro hall p hp hnew q hq heq
    have hidentities := hall.identities
    rw [List.map_append, List.nodup_append] at hidentities
    exact hidentities.2.2 _ (List.mem_map_of_mem hq) _ (List.mem_map_of_mem ((hmem p).mpr ⟨hp, hnew⟩)) heq
  · intro hfresh
    refine ⟨fun p hp => ?_, ?_, ?_⟩
    · obtain hp | hp := List.mem_append.mp hp
      · exact h.valid p hp
      · exact h'.valid p ((hmem p).mp hp).1
    · rw [List.map_append, List.nodup_append]
      refine ⟨h.ids, h'.ids.sublist (List.filter_sublist.map _), ?_⟩
      intro _ hkey _ hkey'
      obtain ⟨q, hq, rfl⟩ := List.mem_map.mp hkey
      obtain ⟨p, hp, rfl⟩ := List.mem_map.mp hkey'
      exact ((hmem p).mp hp).2.2 q hq
    · rw [List.map_append, List.nodup_append]
      refine ⟨h.identities, h'.identities.sublist (List.filter_sublist.map _), ?_⟩
      intro _ hkey _ hkey'
      obtain ⟨q, hq, rfl⟩ := List.mem_map.mp hkey
      obtain ⟨p, hp, rfl⟩ := List.mem_map.mp hkey'
      obtain ⟨hp, hnew⟩ := (hmem p).mp hp
      exact hfresh p hp hnew q hq

/-- A merge adds the products of new assets if every imported product joins and there is room. -/
theorem merge_eq_ok {c c' merged : Catalog} (h : c.Built crates) (h' : c'.Built crates) :
    merge crates c c' = .ok merged ↔ (∀ p ∈ c'.products, Joins c.products p) ∧
      c.products.length + (additions c.products c'.products).length ≤ maxProducts ∧
      merged = of crates (c.products ++ additions c.products c'.products) := by
  have hsound := h.sound
  have hsound' := h'.sound
  have hperm := hsound.rows_added_perm hsound'.ids
  have hjoins : (∀ p ∈ c'.products, Joins c.products p) ↔ (∀ p ∈ c'.products, Accepts c.products p) ∧
      Listable crates (hsound.added c'.products).rows := by
    have hlistable : Listable crates (hsound.added c'.products).rows ↔
        ∀ p ∈ c'.products, IsNew c.products p → IsFresh c.products p := by
      rw [← listable_append_iff hsound.toListable hsound'.toListable]
      exact ⟨fun hl => hl.perm hperm, fun hl => hl.perm hperm.symm⟩
    simp only [hlistable, joins_iff hsound.toListable, forall_and]
  have hadditions : (∀ p ∈ c'.products, Joins c.products p) →
      c'.products.filter (IsNew c.products) = additions c.products c'.products := by
    intro hall
    refine List.filter_congr fun p hp => ?_
    rw [decide_eq_decide]
    exact (hall p hp).isNew_iff
  rw [merge, hsound.insertAll_products]
  simp only [bind_eq_ok, foldlM_mergeProduct_eq_ok hsound hsound'.ids, new_eq_ok]
  constructor
  · rintro ⟨_, ⟨haccepts, rfl⟩, hlength, hlistable, rfl⟩
    have hall := hjoins.mpr ⟨haccepts, hlistable⟩
    rw [hperm.length_eq, hadditions hall, List.length_append] at hlength
    refine ⟨hall, hlength, ?_⟩
    rw [← hadditions hall]
    exact of_perm hlistable.ids hperm
  · rintro ⟨hall, hlength, rfl⟩
    obtain ⟨haccepts, hlistable⟩ := hjoins.mp hall
    refine ⟨_, ⟨haccepts, rfl⟩, ?_, hlistable, ?_⟩
    · rwa [hperm.length_eq, hadditions hall, List.length_append]
    · rw [← hadditions hall]
      exact (of_perm hlistable.ids hperm).symm

/-! ## What a merge keeps -/

section Kept

variable {c c' merged : Catalog}

theorem built_of_merge (h : merge crates c c' = .ok merged) : merged.Built crates := by
  rw [merge, bind_eq_ok] at h
  obtain ⟨table, -, hnew⟩ := h
  exact .inr ⟨_, hnew⟩

/-- The products after a merge. -/
theorem mem_merged (h : c.Built crates) (h' : c'.Built crates) (hmerge : merge crates c c' = .ok merged)
    {p : Product} : p ∈ merged.products ↔ p ∈ c.products ∨ p ∈ additions c.products c'.products := by
  obtain ⟨-, -, rfl⟩ := (merge_eq_ok h h').mp hmerge
  rw [of, (sortProducts_perm _).mem_iff, List.mem_append]

theorem mem_additions {p : Product} :
    p ∈ additions products imported ↔ p ∈ imported ∧ IsFresh products p := by
  simp [additions, List.mem_filter]

/-- After a merge every imported product joins again, and none is new. -/
theorem joins_merged (h : c.Built crates) (h' : c'.Built crates) (hmerge : merge crates c c' = .ok merged)
    {p : Product} (hp : p ∈ c'.products) : Joins merged.products p ∧ ¬IsFresh merged.products p := by
  have hmem := fun q => @mem_merged crates c c' merged h h' hmerge q
  have hjoins := ((merge_eq_ok h h').mp hmerge).1 p hp
  have hsame : ∀ q ∈ additions c.products c'.products, q.identity = p.identity → q = p :=
    fun q hq heq => h'.sound.eq_of_identity (mem_additions.mp hq).1 hp heq
  have hold : ¬IsFresh merged.products p := by
    intro hfresh
    by_cases hp' : IsFresh c.products p
    · exact hfresh p ((hmem p).mpr (.inr (mem_additions.mpr ⟨hp, hp'⟩))) rfl
    · exact hp' fun q hq => hfresh q ((hmem q).mpr (.inl hq))
  refine ⟨⟨hjoins.external, fun q hq heq => ?_, fun q hq heq hkind => ?_, fun q hq heq hkind => ?_,
    fun hfresh => absurd hfresh hold⟩, hold⟩
  · obtain hq | hq := (hmem q).mp hq
    · exact hjoins.address q hq heq
    · rw [hsame q hq heq]
  · obtain hq | hq := (hmem q).mp hq
    · exact hjoins.admitted q hq heq hkind
    · rw [hsame q hq heq]
      exact ⟨rfl, rfl⟩
  · obtain hq | hq := (hmem q).mp hq
    · exact hjoins.listed q hq heq hkind
    · exact hsame q hq heq

/-- The same import once more changes nothing. -/
theorem merge_merged (h : c.Built crates) (h' : c'.Built crates) (hmerge : merge crates c c' = .ok merged) :
    merge crates merged c' = .ok merged := by
  have hbuilt := built_of_merge hmerge
  have hnone : additions merged.products c'.products = [] :=
    List.filter_eq_nil_iff.mpr fun p hp => by simpa using (joins_merged h h' hmerge hp).2
  have hof : of crates merged.products = merged := by
    rw [merge, bind_eq_ok] at hmerge
    obtain ⟨table, -, hnew⟩ := hmerge
    exact of_products_of_new hnew
  refine (merge_eq_ok hbuilt h').mpr ⟨fun p hp => (joins_merged h h' hmerge hp).1, ?_, ?_⟩
  · rw [hnone, List.length_nil, Nat.add_zero]
    exact hbuilt.sound.length_le
  · rw [hnone, List.append_nil, hof]

end Kept

/-! ## Spellings -/

/-- The same product with another spelling of its address. -/
structure Respelled (p q : Product) : Prop where
  identity : q.identity = p.identity
  rest : q = { p with address := q.address }

theorem Respelled.refl (p : Product) : Respelled p p := ⟨rfl, rfl⟩

theorem Respelled.symm {p q : Product} (h : Respelled p q) : Respelled q p where
  identity := h.identity.symm
  rest := by rw [h.rest]

theorem Respelled.productId {p q : Product} (h : Respelled p q) : q.productId = p.productId := by rw [h.rest]

/-- A product that joins for some spelling. -/
structure Compatible (products : List Product) (p : Product) : Prop where
  external : p.sourceKind = .issuerCatalog
  admitted : ∀ q ∈ products, q.identity = p.identity → q.sourceKind = .localAdmission →
    q.instrument = p.instrument ∧ q.issuer = p.issuer
  listed : ∀ q ∈ products, q.identity = p.identity → q.sourceKind = .issuerCatalog → Respelled p q
  fresh : IsFresh products p → ∀ q ∈ products, q.productId ≠ p.productId

/-- A product joins if it is compatible and has the spelling of the local product. -/
theorem joins_iff_compatible {p : Product} : Joins products p ↔ Compatible products p ∧
    ∀ q ∈ products, q.identity = p.identity → q.address = p.address := by
  constructor
  · intro h
    refine ⟨⟨h.external, h.admitted, fun q hq heq hkind => ?_, h.fresh⟩, h.address⟩
    rw [h.listed q hq heq hkind]
    exact .refl p
  · rintro ⟨h, haddress⟩
    refine ⟨h.external, haddress, h.admitted, fun q hq heq hkind => ?_, h.fresh⟩
    rw [(h.listed q hq heq hkind).rest, haddress q hq heq]

theorem isFresh_respelled {p p' : Product} (h : Respelled p p') :
    IsFresh products p ↔ IsFresh products p' := by
  rw [IsFresh, IsFresh, h.identity]

/-- Whether a product is compatible does not depend on its spelling. -/
theorem Compatible.respelled {p p' : Product} (h : Compatible products p) (hp : Respelled p p') :
    Compatible products p' where
  external := by rw [hp.rest]; exact h.external
  admitted := fun q hq heq hkind => by
    rw [hp.rest]
    exact h.admitted q hq (heq.trans hp.identity) hkind
  listed := fun q hq heq hkind => by
    have hpq := h.listed q hq (heq.trans hp.identity) hkind
    refine ⟨heq, ?_⟩
    rw [hp.rest]
    exact hpq.rest
  fresh := fun hfresh q hq => by
    rw [hp.productId]
    exact h.fresh ((isFresh_respelled hp).mpr hfresh) q hq

theorem forall_compatible_iff {imported' : List Product} (h : List.Forall₂ Respelled imported imported') :
    (∀ p ∈ imported, Compatible products p) ↔ ∀ p ∈ imported', Compatible products p := by
  induction h with
  | nil => simp
  | cons hp _ ih =>
    simp only [List.forall_mem_cons, ih]
    exact and_congr_left fun _ => ⟨fun h => h.respelled hp, fun h => h.respelled hp.symm⟩

theorem additions_respelled {imported' : List Product} (h : List.Forall₂ Respelled imported imported') :
    List.Forall₂ Respelled (additions products imported) (additions products imported') := by
  induction h with
  | nil => exact .nil
  | @cons p p' _ _ hp _ ih =>
    unfold additions at ih ⊢
    by_cases hfresh : IsFresh products p
    · rw [List.filter_cons_of_pos (by simpa using hfresh),
        List.filter_cons_of_pos (by simpa using (isFresh_respelled hp).mp hfresh)]
      exact .cons hp ih
    · rw [List.filter_cons_of_neg (by simpa using hfresh),
        List.filter_cons_of_neg (by simpa using fun h => hfresh ((isFresh_respelled hp).mpr h))]
      exact ih

theorem orderedInsert_respelled {p p' : Product} (hp : Respelled p p') {products' : List Product}
    (h : List.Forall₂ Respelled products products') :
    List.Forall₂ Respelled (products.orderedInsert (fun a b => a.productId ≤ b.productId) p)
      (products'.orderedInsert (fun a b => a.productId ≤ b.productId) p') := by
  induction h with
  | nil => exact .cons hp .nil
  | @cons q q' rest rest' hq hrest ih =>
    simp only [List.orderedInsert_cons, hp.productId, hq.productId]
    split
    · exact .cons hp (.cons hq hrest)
    · exact .cons hq ih

theorem sortProducts_respelled {products' : List Product} (h : List.Forall₂ Respelled products products') :
    List.Forall₂ Respelled (sortProducts products) (sortProducts products') := by
  induction h with
  | nil => exact .nil
  | cons hp _ ih => exact orderedInsert_respelled hp ih

/-! ## Addresses -/

/-- The case of a letter, the other way. -/
def flipCase (c : Char) : Char := if c.isUpper then c.toLower else c.toUpper

section Digits

variable {c : Char} (hc : isAsciiHexDigit c = true)

include hc

/-- A property of hexadecimal digits holds if it does of ASCII characters. -/
theorem forall_hexDigit {P : Char → Prop}
    (h : ∀ n < 128, isAsciiHexDigit (Char.ofNat n) = true → P (Char.ofNat n)) : P c := by
  have hlt : c.toNat < 128 := by
    simp only [isAsciiHexDigit, Char.isDigit, Bool.or_eq_true, Bool.and_eq_true, decide_eq_true_eq] at hc
    have hval : c.toNat = c.val.toNat := rfl
    rcases hc with (⟨-, hle⟩ | ⟨-, hle⟩) | ⟨-, hle⟩
    all_goals
      have hle := UInt32.le_iff_toNat_le.mp hle
      simp at hle
      omega
  have hP := h c.toNat hlt
  rw [Char.ofNat_toNat] at hP
  exact hP hc

theorem toLower_flipCase : (flipCase c).toLower = c.toLower :=
  forall_hexDigit hc (P := fun c => (flipCase c).toLower = c.toLower) (by decide)

theorem isAsciiHexDigit_flipCase : isAsciiHexDigit (flipCase c) = true :=
  forall_hexDigit hc (P := fun c => isAsciiHexDigit (flipCase c) = true) (by decide)

theorem flipCase_ne : c.isAlpha = true → flipCase c ≠ c :=
  forall_hexDigit hc (P := fun c => c.isAlpha = true → flipCase c ≠ c) (by decide)

theorem eq_zero_of_flipCase : flipCase c = '0' → c = '0' :=
  forall_hexDigit hc (P := fun c => flipCase c = '0' → c = '0') (by decide)

/-- A digit that is no letter has one case. -/
theorem isDigit_toLower_of_not_isAlpha : c.isAlpha = false → c.toLower = c ∧ c.isDigit = true :=
  forall_hexDigit hc (P := fun c => c.isAlpha = false → c.toLower = c ∧ c.isDigit = true) (by decide)

theorem toLower_of_isDigit : c.toLower.isDigit = true → c.toLower = c :=
  forall_hexDigit hc (P := fun c => c.toLower.isDigit = true → c.toLower = c) (by decide)

end Digits

/-- The address of an asset of an EVM chain. -/
structure EvmAddress (address : String) : Prop where
  length : address.toList.length = 42
  start : ['0', 'x'] <+: address.toList
  digits : (address.toList.drop 2).all isAsciiHexDigit = true
  nonzero : (address.toList.drop 2).all (· = '0') = false

/-- An address has a letter among its digits. -/
def HasLetter (address : String) : Prop := ∃ c ∈ address.toList.drop 2, c.isAlpha = true

theorem EvmAddress.toList_eq {a : String} (h : EvmAddress a) :
    a.toList = ['0', 'x'] ++ a.toList.drop 2 := by
  obtain ⟨rest, hrest⟩ := h.start
  rw [← hrest]
  rfl

/-- Addresses without letters have one spelling. -/
theorem EvmAddress.eq_of_lowerCase {a b : String} (ha : EvmAddress a) (hb : EvmAddress b)
    (h : lowerCase b = lowerCase a) (hletter : ¬HasLetter a) : b = a := by
  have hlower : (b.toList.drop 2).map Char.toLower = (a.toList.drop 2).map Char.toLower := by
    have hlist := String.ofList_injective h
    rw [List.map_drop, List.map_drop, hlist]
  have hdigits : ∀ c ∈ a.toList.drop 2, c.toLower = c ∧ c.isDigit = true := by
    intro c hc
    refine isDigit_toLower_of_not_isAlpha (List.all_eq_true.mp ha.digits c hc) ?_
    cases halpha : c.isAlpha with
    | false => rfl
    | true => exact absurd ⟨c, hc, halpha⟩ hletter
  have hself : (a.toList.drop 2).map Char.toLower = a.toList.drop 2 :=
    (List.map_congr_left fun c hc => (hdigits c hc).1).trans (List.map_id _)
  have hself' : (b.toList.drop 2).map Char.toLower = b.toList.drop 2 := by
    refine (List.map_congr_left fun c hc => ?_).trans (List.map_id _)
    refine toLower_of_isDigit (List.all_eq_true.mp hb.digits c hc) ?_
    have hmem : c.toLower ∈ a.toList.drop 2 := by
      rw [← hself, ← hlower]
      exact List.mem_map_of_mem hc
    exact (hdigits _ hmem).2
  have hdrop : b.toList.drop 2 = a.toList.drop 2 := by rw [← hself', hlower, hself]
  rw [← String.toList_inj, hb.toList_eq, ha.toList_eq, hdrop]

/-- An address with a letter has another spelling. -/
theorem EvmAddress.exists_spelling {a : String} (h : EvmAddress a) (hletter : HasLetter a) :
    ∃ b, EvmAddress b ∧ lowerCase b = lowerCase a ∧ b ≠ a := by
  have hdigits : ∀ c ∈ a.toList.drop 2, isAsciiHexDigit c = true := List.all_eq_true.mp h.digits
  have hlist : (String.ofList (['0', 'x'] ++ (a.toList.drop 2).map flipCase)).toList =
      ['0', 'x'] ++ (a.toList.drop 2).map flipCase := String.toList_ofList
  refine ⟨String.ofList (['0', 'x'] ++ (a.toList.drop 2).map flipCase), ⟨?_, ?_, ?_, ?_⟩, ?_, fun heq => ?_⟩
  · rw [hlist, List.length_append, List.length_map, ← List.length_append, ← h.toList_eq]
    exact h.length
  · rw [hlist]
    exact List.prefix_append _ _
  · rw [hlist]
    show ((a.toList.drop 2).map flipCase).all isAsciiHexDigit = true
    rw [List.all_map, List.all_eq_true]
    exact fun c hc => isAsciiHexDigit_flipCase (hdigits c hc)
  · rw [hlist]
    show ((a.toList.drop 2).map flipCase).all (· = '0') = false
    rw [List.all_map, List.all_eq_false]
    obtain ⟨c, hc, hne⟩ := List.all_eq_false.mp h.nonzero
    refine ⟨c, hc, fun hzero => hne ?_⟩
    simp only [Function.comp_apply, decide_eq_true_eq] at hzero ⊢
    exact eq_zero_of_flipCase (hdigits c hc) hzero
  · have hmap : (a.toList.drop 2).map (Char.toLower ∘ flipCase) = (a.toList.drop 2).map Char.toLower :=
      List.map_congr_left fun c hc => toLower_flipCase (hdigits c hc)
    rw [lowerCase, lowerCase, hlist, List.map_append, List.map_map, hmap, ← List.map_append, ← h.toList_eq]
  · obtain ⟨c, hc, halpha⟩ := hletter
    have hdrop : (a.toList.drop 2).map flipCase = a.toList.drop 2 := by
      have hdrop := congrArg (fun s : String => s.toList.drop 2) heq
      simpa [hlist] using hdrop
    exact flipCase_ne (hdigits c hc) halpha (List.map_inj_left.mp (hdrop.trans (List.map_id _).symm) c hc)

/-- The part of a chain after its namespace. -/
theorem stripStart_of_onEvm {p : Product} (h : p.OnEvm) : ∃ id, stripStart "eip155:" p.chain = some id :=
  ⟨_, if_pos h⟩

theorem evmAddress_of_validate {p : Product} (hevm : p.OnEvm) (h : p.validate crates = .ok ()) :
    EvmAddress p.address := by
  obtain ⟨id, hid⟩ := stripStart_of_onEvm hevm
  rw [Product.validate, hid] at h
  simp only [bind_eq_ok, refuse_eq_ok, not_not] at h
  obtain ⟨_, -, _, -, hasset⟩ := h
  exact ⟨hasset.2.1, hasset.2.2.1, hasset.2.2.2.1, hasset.2.2.2.2.1⟩

/-- A valid product stays valid with another address of an EVM chain. -/
theorem validate_readdress {p : Product} {a : String} (hevm : p.OnEvm) (h : p.validate crates = .ok ())
    (ha : EvmAddress a) : ({ p with address := a } : Product).validate crates = .ok () := by
  obtain ⟨id, hid⟩ := stripStart_of_onEvm hevm
  rw [Product.validate, hid] at h ⊢
  simp only [bind_eq_ok, refuse_eq_ok, not_not] at h ⊢
  obtain ⟨url, hurl, u, hdescribed, hasset⟩ := h
  exact ⟨url, hurl, u, hdescribed, hasset.1, ha.length, ha.start, ha.digits, ha.nonzero, hasset.2.2.2.2.2⟩

theorem identity_snd_of_onEvm {p : Product} (h : p.OnEvm) : p.identity.2 = lowerCase p.address := if_pos h

theorem onEvm_congr {p q : Product} (h : p.chain = q.chain) : p.OnEvm ↔ q.OnEvm := by
  rw [Product.OnEvm, Product.OnEvm, h]

/-- Another spelling of the address of an EVM chain is the same asset. -/
theorem identity_readdress {p : Product} {a : String} (hevm : p.OnEvm) (h : lowerCase a = lowerCase p.address) :
    ({ p with address := a } : Product).identity = p.identity := by
  refine Prod.ext rfl ?_
  rw [identity_snd_of_onEvm hevm, identity_snd_of_onEvm (show Product.OnEvm { p with address := a } from hevm), h]

/-- Products of one asset have one spelling where there is no letter to spell. -/
theorem address_eq_of_identity {p q : Product} (hp : p.validate crates = .ok ())
    (hq : q.validate crates = .ok ()) (h : q.identity = p.identity)
    (hletter : ¬(p.OnEvm ∧ HasLetter p.address)) : q.address = p.address := by
  have hchain := onEvm_congr (chain_eq_of_identity h)
  by_cases hevm : p.OnEvm
  · have hlower := congrArg Prod.snd h
    rw [identity_snd_of_onEvm hevm, identity_snd_of_onEvm (hchain.mpr hevm)] at hlower
    exact (evmAddress_of_validate hevm hp).eq_of_lowerCase (evmAddress_of_validate (hchain.mpr hevm) hq) hlower
      fun hl => hletter ⟨hevm, hl⟩
  · have haddress := congrArg Prod.snd h
    rwa [Product.identity, Product.identity, if_neg hevm, if_neg fun hq => hevm (hchain.mp hq)] at haddress

/-! ## When the spelling matters -/

/-- Two merges fail together, or their products are the same up to the spelling. -/
def SameOutcome : Answer Catalog → Answer Catalog → Prop
  | .ok c, .ok c' => List.Forall₂ Respelled c.products c'.products
  | .error _, .error _ => True
  | _, _ => False

/-- What a merge is to protect: the admitted products, the identities, where its products come from, that
it is done once for all, and that the spelling of addresses does not matter. -/
structure Protects (crates : CatalogCrates) (c imported : Catalog) : Prop where
  admitted : ∀ merged, merge crates c imported = .ok merged →
    ∀ p ∈ c.products, p.sourceKind = .localAdmission → p ∈ merged.products
  distinct : ∀ merged, merge crates c imported = .ok merged → (merged.products.map Product.identity).Nodup
  origin : ∀ merged, merge crates c imported = .ok merged →
    ∀ p ∈ merged.products, p ∈ c.products ∨ p ∈ imported.products
  idempotent : ∀ merged, merge crates c imported = .ok merged → merge crates merged imported = .ok merged
  spelling : ∀ imported', imported'.Built crates → List.Forall₂ Respelled imported.products imported'.products →
    SameOutcome (merge crates c imported) (merge crates c imported')

/-- A list that merges in some spelling has an asset of the local catalog whose address has a letter. -/
structure SpellingMatters (products imported : List Product) : Prop where
  compatible : ∀ p ∈ imported, Compatible products p
  room : products.length + (additions products imported).length ≤ maxProducts
  shared : ∃ p ∈ imported, (p.OnEvm ∧ HasLetter p.address) ∧ ¬IsFresh products p

/-- Products with other addresses of the same assets make a catalog. -/
theorem built_of_map {c : Catalog} (h : c.Built crates) {f : Product → Product}
    (hf : ∀ p ∈ c.products, Respelled p (f p))
    (hvalid : ∀ p ∈ c.products, (f p).validate crates = .ok ()) :
    ∃ c' : Catalog, c'.Built crates ∧ c'.products = c.products.map f := by
  have hsound := h.sound
  have hids : (c.products.map f).map Product.productId = c.products.map Product.productId := by
    rw [List.map_map]
    exact List.map_congr_left fun p hp => (hf p hp).productId
  have hidentities : (c.products.map f).map Product.identity = c.products.map Product.identity := by
    rw [List.map_map]
    exact List.map_congr_left fun p hp => (hf p hp).identity
  have hlistable : Listable crates (c.products.map f) := by
    refine ⟨fun q hq => ?_, hids ▸ hsound.ids, hidentities ▸ hsound.identities⟩
    obtain ⟨p, hp, rfl⟩ := List.mem_map.mp hq
    exact hvalid p hp
  have hsorted : (c.products.map f).Pairwise fun a b => a.productId < b.productId := by
    rw [List.pairwise_map]
    refine hsound.sorted.imp_of_mem fun hp hq hlt => ?_
    rwa [(hf _ hp).productId, (hf _ hq).productId]
  refine ⟨of crates (c.products.map f), .inr ⟨_, new_eq_ok.mpr ⟨?_, hlistable, rfl⟩⟩, sortProducts_of_sorted hsorted⟩
  rw [List.length_map]
  exact hsound.length_le

theorem forall₂_map_of_forall {f : Product → Product} (hf : ∀ p ∈ products, Respelled p (f p)) :
    List.Forall₂ Respelled products (products.map f) := by
  rw [List.forall₂_map_right_iff, List.forall₂_same]
  exact hf

section Outcomes

variable {c imported imported' : Catalog}

/-- A merge succeeds if the products are compatible, have the spelling of the local ones, and there is
room. -/
theorem merge_eq_of (h : c.Built crates) (himported : imported.Built crates)
    (hcompatible : ∀ p ∈ imported.products, Compatible c.products p)
    (hroom : c.products.length + (additions c.products imported.products).length ≤ maxProducts)
    (haddress : ∀ p ∈ imported.products, ∀ q ∈ c.products, q.identity = p.identity → q.address = p.address) :
    merge crates c imported = .ok (of crates (c.products ++ additions c.products imported.products)) :=
  (merge_eq_ok h himported).mpr
    ⟨fun p hp => joins_iff_compatible.mpr ⟨hcompatible p hp, haddress p hp⟩, hroom, rfl⟩

theorem compatible_of_merge {merged : Catalog} (h : c.Built crates) (himported : imported.Built crates)
    (hmerge : merge crates c imported = .ok merged) :
    (∀ p ∈ imported.products, Compatible c.products p) ∧
      c.products.length + (additions c.products imported.products).length ≤ maxProducts := by
  obtain ⟨hjoins, hroom, -⟩ := (merge_eq_ok h himported).mp hmerge
  exact ⟨fun p hp => (joins_iff_compatible.mp (hjoins p hp)).1, hroom⟩

/-- Without a letter to spell, the merge of another spelling has the same outcome. -/
theorem sameOutcome_of_not_spellingMatters (h : c.Built crates) (himported : imported.Built crates)
    (himported' : imported'.Built crates)
    (hspelling : List.Forall₂ Respelled imported.products imported'.products)
    (hno : ¬SpellingMatters c.products imported.products) :
    SameOutcome (merge crates c imported) (merge crates c imported') := by
  have hadditions : List.Forall₂ Respelled (additions c.products imported.products)
      (additions c.products imported'.products) := additions_respelled hspelling
  by_cases hall : (∀ p ∈ imported.products, Compatible c.products p) ∧
      c.products.length + (additions c.products imported.products).length ≤ maxProducts
  · obtain ⟨hcompatible, hroom⟩ := hall
    have hletter : ∀ p ∈ imported.products, ∀ q ∈ c.products, q.identity = p.identity →
        ¬(p.OnEvm ∧ HasLetter p.address) := fun p hp q hq heq hl =>
      hno ⟨hcompatible, hroom, p, hp, hl, fun hfresh => hfresh q hq heq⟩
    have hfirst : ∀ p ∈ imported.products, ∀ q ∈ c.products, q.identity = p.identity →
        q.address = p.address := fun p hp q hq heq =>
      address_eq_of_identity (himported.sound.valid p hp) (h.sound.valid q hq) heq (hletter p hp q hq heq)
    have hsecond : ∀ p ∈ imported'.products, ∀ q ∈ c.products, q.identity = p.identity →
        q.address = p.address := by
      intro p' hp' q hq heq
      obtain ⟨p, hp, hpp⟩ := exists_of_forall₂ hspelling.flip hp'
      have hpq := heq.trans hpp.identity
      have hspell := address_eq_of_identity (himported.sound.valid p hp) (himported'.sound.valid p' hp')
        hpp.identity (hletter p hp q hq hpq)
      rw [hspell]
      exact hfirst p hp q hq hpq
    rw [merge_eq_of h himported hcompatible hroom hfirst, merge_eq_of h himported'
      ((forall_compatible_iff hspelling).mp hcompatible) (hadditions.length_eq ▸ hroom) hsecond]
    exact sortProducts_respelled (List.rel_append (List.forall₂_same.mpr fun p _ => .refl p) hadditions)
  · -- neither merges
    have hfirst : ∀ merged, merge crates c imported ≠ .ok merged :=
      fun merged hmerge => hall (compatible_of_merge h himported hmerge)
    have hsecond : ∀ merged, merge crates c imported' ≠ .ok merged := by
      intro merged hmerge
      obtain ⟨hcompatible, hroom⟩ := compatible_of_merge h himported' hmerge
      exact hall ⟨(forall_compatible_iff hspelling).mpr hcompatible, hadditions.length_eq ▸ hroom⟩
    cases hm : merge crates c imported with
    | ok merged => exact absurd hm (hfirst merged)
    | error e =>
      cases hm' : merge crates c imported' with
      | ok merged => exact absurd hm' (hsecond merged)
      | error e' => trivial

/-- The product of a local product's asset can take its spelling. -/
theorem respelled_partner {p q : Product} (hp : p.validate crates = .ok ()) (hq : q.validate crates = .ok ())
    (h : q.identity = p.identity) : Respelled p { p with address := q.address } ∧
      ({ p with address := q.address } : Product).validate crates = .ok () := by
  have hchain := onEvm_congr (chain_eq_of_identity h)
  by_cases hevm : p.OnEvm
  · have hlower := congrArg Prod.snd h
    rw [identity_snd_of_onEvm hevm, identity_snd_of_onEvm (hchain.mpr hevm)] at hlower
    exact ⟨⟨identity_readdress hevm hlower, rfl⟩,
      validate_readdress hevm hp (evmAddress_of_validate (hchain.mpr hevm) hq)⟩
  · rw [address_eq_of_identity hp hq h fun hl => hevm hl.1]
    exact ⟨.refl p, hp⟩

/-- The spelling of the local product, if there is one of the asset. -/
def adopt (products : List Product) (p : Product) : Product :=
  match products.find? fun q => q.identity = p.identity with
  | some q => { p with address := q.address }
  | none => p

theorem adopt_respelled {p : Product} (h : Listable crates products) (hp : p.validate crates = .ok ()) :
    Respelled p (adopt products p) ∧ (adopt products p).validate crates = .ok () := by
  unfold adopt
  split
  · rename_i q hfind
    exact respelled_partner hp (h.valid q (List.mem_of_find?_eq_some hfind)) (by simpa using List.find?_some hfind)
  · exact ⟨.refl p, hp⟩

theorem adopt_address {p q : Product} (h : Listable crates products) (hq : q ∈ products)
    (heq : q.identity = p.identity) : q.address = (adopt products p).address := by
  unfold adopt
  split
  · rename_i r hfind
    have hr : r.identity = p.identity := by simpa using List.find?_some hfind
    rw [h.eq_of_identity hq (List.mem_of_find?_eq_some hfind) (heq.trans hr.symm)]
  · rename_i hfind
    have hno := List.find?_eq_none.mp hfind q hq
    exact absurd heq (by simpa using hno)

/-- A list that merges in some spelling merges in the spelling of the local catalog. -/
theorem exists_merging_spelling (h : c.Built crates) (himported : imported.Built crates)
    (hno : SpellingMatters c.products imported.products) :
    ∃ imported' : Catalog, imported'.Built crates ∧
      List.Forall₂ Respelled imported.products imported'.products ∧
      ∃ merged, merge crates c imported' = .ok merged := by
  have hadopt := fun p hp => adopt_respelled h.sound.toListable (himported.sound.valid p hp)
  obtain ⟨imported', hbuilt, hproducts⟩ := built_of_map himported (fun p hp => (hadopt p hp).1)
    fun p hp => (hadopt p hp).2
  have hspelling : List.Forall₂ Respelled imported.products imported'.products := by
    rw [hproducts]
    exact forall₂_map_of_forall fun p hp => (hadopt p hp).1
  have hadditions : List.Forall₂ Respelled (additions c.products imported.products)
      (additions c.products imported'.products) := additions_respelled hspelling
  refine ⟨imported', hbuilt, hspelling, _, merge_eq_of h hbuilt
    ((forall_compatible_iff hspelling).mp hno.compatible) (hadditions.length_eq ▸ hno.room) ?_⟩
  rw [hproducts]
  intro p' hp' q hq heq
  obtain ⟨p, hp, rfl⟩ := List.mem_map.mp hp'
  exact adopt_address h.sound.toListable hq (heq.trans (hadopt p hp).1.identity)

/-- A list with a letter to spell has a spelling that does not merge. -/
theorem exists_failing_spelling (h : c.Built crates) (himported : imported.Built crates)
    (hno : SpellingMatters c.products imported.products) :
    ∃ imported' : Catalog, imported'.Built crates ∧
      List.Forall₂ Respelled imported.products imported'.products ∧
      ∀ merged, merge crates c imported' ≠ .ok merged := by
  obtain ⟨p, hp, ⟨hevm, hletter⟩, hold⟩ := hno.shared
  obtain ⟨q, hq, heq⟩ : ∃ q ∈ c.products, q.identity = p.identity := by simpa [IsFresh] using hold
  have hvalid := himported.sound.valid p hp
  have haddress := evmAddress_of_validate hevm hvalid
  -- a spelling that is not the one of the local product
  obtain ⟨a, ha, hlower, hne⟩ : ∃ a, EvmAddress a ∧ lowerCase a = lowerCase p.address ∧ a ≠ q.address := by
    by_cases hsame : p.address = q.address
    · rw [← hsame]
      exact haddress.exists_spelling hletter
    · exact ⟨p.address, haddress, rfl, hsame⟩
  have hrespell : ∀ r ∈ imported.products,
      Respelled r (if r = p then { p with address := a } else r) ∧
        (if r = p then { p with address := a } else r).validate crates = .ok () := by
    intro r hr
    by_cases hrp : r = p
    · rw [if_pos hrp, hrp]
      exact ⟨⟨identity_readdress hevm hlower, rfl⟩, validate_readdress hevm hvalid ha⟩
    · rw [if_neg hrp]
      exact ⟨.refl r, himported.sound.valid r hr⟩
  obtain ⟨imported', hbuilt, hproducts⟩ := built_of_map himported (fun r hr => (hrespell r hr).1)
    fun r hr => (hrespell r hr).2
  refine ⟨imported', hbuilt, ?_, fun merged hmerge => ?_⟩
  · rw [hproducts]
    exact forall₂_map_of_forall fun r hr => (hrespell r hr).1
  · have hmem : ({ p with address := a } : Product) ∈ imported'.products := by
      rw [hproducts]
      exact List.mem_map.mpr ⟨p, hp, if_pos rfl⟩
    have hjoins := ((merge_eq_ok h hbuilt).mp hmerge).1 _ hmem
    exact hne (hjoins.address q hq (heq.trans (identity_readdress hevm hlower).symm)).symm

/-- A merge keeps the admitted products and the identities, adds nothing of its own and is done once for
all. The spelling of addresses does not matter to it exactly if the list has no asset of the local catalog
whose address has a letter, or does not merge in any spelling. -/
theorem catalog_merge_protects_iff (h : c.Built crates) (himported : imported.Built crates) :
    Protects crates c imported ↔ ¬SpellingMatters c.products imported.products := by
  constructor
  · intro hprotects hno
    cases hmerge : merge crates c imported with
    | ok merged =>
      obtain ⟨imported', hbuilt, hspelling, hfails⟩ := exists_failing_spelling h himported hno
      have hsame := hprotects.spelling imported' hbuilt hspelling
      rw [hmerge] at hsame
      cases hmerge' : merge crates c imported' with
      | ok merged' => exact hfails merged' hmerge'
      | error e =>
        rw [hmerge'] at hsame
        exact hsame
    | error e =>
      obtain ⟨imported', hbuilt, hspelling, merged, hmerge'⟩ := exists_merging_spelling h himported hno
      have hsame := hprotects.spelling imported' hbuilt hspelling
      rw [hmerge, hmerge'] at hsame
      exact hsame
  · intro hno
    refine ⟨fun merged hmerge p hp _ => ?_, fun merged hmerge => ?_, fun merged hmerge p hp => ?_,
      fun merged hmerge => merge_merged h himported hmerge, fun imported' hbuilt hspelling =>
        sameOutcome_of_not_spellingMatters h himported hbuilt hspelling hno⟩
    · exact (mem_merged h himported hmerge).mpr (.inl hp)
    · exact (built_of_merge hmerge).sound.identities
    · exact ((mem_merged h himported hmerge).mp hp).imp_right fun hp => (mem_additions.mp hp).1

end Outcomes

/-! ## Two products of one asset -/

/-- A product on an EVM chain with the last digits of its address. -/
def exampleProduct (kind : SourceKind) (productId digits : String) : Product where
  productId := productId
  instrument := "ACME"
  name := "Acme"
  kind := .equity
  issuer := "acme"
  chain := "eip155:1"
  address := "0x00000000000000000000000000000000000000" ++ digits
  executionClass := .evmNative
  sourceKind := kind
  sourceUrl := "https://example.invalid/catalog.json"
  sourceSha256 := "aaaaaaaaaaaaaaaaaaaaaaaaaaaaaaaaaaaaaaaaaaaaaaaaaaaaaaaaaaaaaaaa"
  observedAt := 1
  issuerTradable := none
  fractional := none
  rightsHash := none

/-- The product as it was admitted. -/
def exampleLocal (digits : String) : Product := exampleProduct .localAdmission "local:acme" digits

/-- The product as its issuer lists it. -/
def exampleIssuer (digits : String) : Product := exampleProduct .issuerCatalog "issuer:acme" digits

/-- A field of an object with a text that needs no escapes. -/
def exampleField (name value : String) : String := "\"" ++ name ++ "\":\"" ++ value ++ "\""

/-- The JSON of one of the products. -/
def exampleJson (p : Product) : String :=
  "\x7b" ++ ",".intercalate [exampleField "productId" p.productId, exampleField "instrument" p.instrument,
    exampleField "name" p.name, exampleField "kind" "EQUITY", exampleField "issuer" p.issuer,
    exampleField "chain" p.chain, exampleField "address" p.address,
    exampleField "executionClass" "EVM_NATIVE",
    exampleField "sourceKind" (match p.sourceKind with
      | .localAdmission => "LOCAL_ADMISSION"
      | .issuerCatalog => "ISSUER_CATALOG"),
    exampleField "sourceUrl" p.sourceUrl, exampleField "sourceSha256" p.sourceSha256, "\"observedAt\":1",
    "\"issuerTradable\":null", "\"fractional\":null", "\"rightsHash\":null"] ++ "\x7d"

/-- The JSON of some of the products. -/
def exampleVec (products : List Product) : List UInt8 :=
  utf8 ("[" ++ ",".intercalate (products.map exampleJson) ++ "]").toList

/-- Digests of the catalogs of one product. -/
def exampleDigests : List (List UInt8 × Key) :=
  [(exampleVec [exampleLocal "12"],
      Key.ofNat 0x26357c4663a9c27b089198be1a2165b3f81a41958c7f7ba47a423d71a951181d),
    (exampleVec [exampleIssuer "12"],
      Key.ofNat 0x63262183a9f2d271b217c6e67071550d842ff4e093f4e49a313e873821a6060b),
    (exampleVec [exampleLocal "ab"],
      Key.ofNat 0x4a6972f885080b18158ee597eee251d726beafbfcadc591e17c148d769410f8d),
    (exampleVec [exampleIssuer "ab"],
      Key.ofNat 0x090be1eab46c28d2c695d190dc243511615e3616d26589ad2b1a8c47ef4dbbc3),
    (exampleVec [exampleIssuer "AB"],
      Key.ofNat 0x047ea90cd9394d6b80b2ed9c23e97fc65dbc871296d3e651fea393327fcbbef1)]

/-- Other crates on the values of the example. -/
def exampleCatalogCrates : CatalogCrates where
  parseUrl text := if text = "https://example.invalid/catalog.json" then some ⟨"https", "", none, none, none⟩ else none
  decode58 _ := none
  toVec := exampleVec
  sha256 bytes := (exampleDigests.lookup bytes).getD (Key.ofNat 0)

/-- The catalog of a valid product. -/
theorem built_singleton {p : Product} (h : p.validate crates = .ok ()) : (of crates [p]).Built crates :=
  .inr ⟨[p], new_eq_ok.mpr ⟨by simp [maxProducts], ⟨by simpa, by simp, by simp⟩, rfl⟩⟩

/-- An address without letters. -/
theorem catalog_merge_protects_digits : Protects exampleCatalogCrates
    (of exampleCatalogCrates [exampleLocal "12"]) (of exampleCatalogCrates [exampleIssuer "12"]) := by
  have hvalid : (exampleLocal "12").validate exampleCatalogCrates = .ok () ∧
      (exampleIssuer "12").validate exampleCatalogCrates = .ok () := by decide +kernel
  refine (catalog_merge_protects_iff (built_singleton hvalid.1) (built_singleton hvalid.2)).mpr fun hno => ?_
  obtain ⟨p, hp, ⟨-, c, hc, halpha⟩, -⟩ := hno.shared
  obtain rfl : p = exampleIssuer "12" := List.mem_singleton.mp hp
  have hdigits : ((exampleIssuer "12").address.toList.drop 2).all (!·.isAlpha) = true := by decide
  have hdigit := List.all_eq_true.mp hdigits c hc
  rw [halpha] at hdigit
  cases hdigit

/-- The issuer's product is skipped in the spelling it was admitted with, and fails the merge in capitals. -/
theorem catalog_merge_spelling_matters : ¬Protects exampleCatalogCrates
    (of exampleCatalogCrates [exampleLocal "ab"]) (of exampleCatalogCrates [exampleIssuer "ab"]) := by
  intro hprotects
  have hall : (exampleIssuer "AB").validate exampleCatalogCrates = .ok () ∧
      (merge exampleCatalogCrates (of exampleCatalogCrates [exampleLocal "ab"])
        (of exampleCatalogCrates [exampleIssuer "ab"])).isOk = true ∧
      (merge exampleCatalogCrates (of exampleCatalogCrates [exampleLocal "ab"])
        (of exampleCatalogCrates [exampleIssuer "AB"])).isOk = false := by decide +kernel
  obtain ⟨hvalid, hmerges, hfails⟩ := hall
  have hsame := hprotects.spelling (of exampleCatalogCrates [exampleIssuer "AB"])
    (built_singleton hvalid) (.cons ⟨by decide, by decide⟩ .nil)
  obtain ⟨merged, hmerge⟩ := exists_of_isOk hmerges
  rw [hmerge] at hsame
  cases hmerge' : merge exampleCatalogCrates (of exampleCatalogCrates [exampleLocal "ab"])
      (of exampleCatalogCrates [exampleIssuer "AB"]) with
  | ok merged' =>
    rw [hmerge'] at hfails
    cases hfails
  | error e =>
    rw [hmerge'] at hsame
    exact hsame

end StockMesh.Host.Catalog
