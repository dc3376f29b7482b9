import StockMesh.Journal.Records

/-! # The indexes of a journal

The signatures and the reservations of a journal follow every append record by record, and `open`
computes them again from the entries. Both describe the entries (`Index.Describes`), which determines
them. -/

namespace StockMesh.Journal

open Host (Answer refuse refuse_of_not bounded bounded_eq_ok)

open Function

variable {τ : Type} {crates : Crates}

/-- The signatures are those of the entries, and a resource is reserved by the entry that lists it and is
not terminal. -/
structure Index.Describes (index : Index) (entries : List (Entry τ)) : Prop where
  signatures : ∀ s id, index.signatures s = some id ↔ ∃ e ∈ entries, e.signature = s ∧ e.id = id
  reservations : ∀ r id, index.reservations r = some id ↔
    ∃ e ∈ entries, e.phase.terminal = false ∧ r ∈ e.resources ∧ e.id = id

/-- The entries determine their indexes. -/
theorem Index.Describes.unique {x y : Index} {entries : List (Entry τ)} (hx : x.Describes entries)
    (hy : y.Describes entries) : x = y := by
  obtain ⟨xs, xr⟩ := x
  obtain ⟨ys, yr⟩ := y
  have hs : xs = ys := by
    funext s
    apply Option.ext
    intro id
    exact (hx.signatures s id).trans (hy.signatures s id).symm
  have hr : xr = yr := by
    funext r
    apply Option.ext
    intro id
    exact (hx.reservations r id).trans (hy.reservations r id).symm
  rw [hs, hr]

theorem Index.Describes.perm {x : Index} {entries entries' : List (Entry τ)}
    (h : x.Describes entries) (hmem : ∀ e, e ∈ entries ↔ e ∈ entries') : x.Describes entries' := by
  constructor
  · simpa only [hmem] using h.signatures
  · simpa only [hmem] using h.reservations

theorem Index.Describes.nil :
    Index.Describes ⟨fun _ => none, fun _ => none⟩ ([] : List (Entry τ)) := by
  constructor <;> simp

/-! ## Following an append -/

theorem foldl_holdResource_terminal {e : Entry τ} (h : e.phase.terminal = true)
    (resources : List Key) (m : Key → Option String) (r : Key) :
    resources.foldl (holdResource e) m r =
      if r ∈ resources ∧ m r = some e.id then none else m r := by
  induction resources generalizing m with
  | nil => simp
  | cons x resources ih =>
    rw [List.foldl_cons, ih, holdResource, if_pos h]
    by_cases hx : m x = some e.id
    · rw [if_pos hx]
      by_cases hr : r = x
      · subst hr
        simp [hx]
      · simp [hr]
    · rw [if_neg hx]
      by_cases hr : r = x
      · subst hr
        simp [hx]
      · simp [hr]

theorem foldl_holdResource_live {e : Entry τ} (h : e.phase.terminal = false)
    (resources : List Key) (m : Key → Option String) (r : Key) :
    resources.foldl (holdResource e) m r = if r ∈ resources then some e.id else m r := by
  induction resources generalizing m with
  | nil => simp
  | cons x resources ih =>
    have hstep : holdResource e m x = update m x (some e.id) := by
      simp [holdResource, h]
    rw [List.foldl_cons, ih, hstep]
    by_cases hr : r = x
    · subst hr
      simp
    · simp [hr]

/-- The indexes of a journal describe its entries. -/
def Indexed (j : Journal τ) : Prop :=
  Index.Describes ⟨j.signatures, j.reservations⟩ j.entries.rows

theorem index_reservations (j : Journal τ) (e : Entry τ) (r : Key) :
    (j.index e).reservations r =
      if e.phase.terminal then
        if r ∈ e.resources ∧ j.reservations r = some e.id then none else j.reservations r
      else if r ∈ e.resources then some e.id else j.reservations r := by
  cases h : e.phase.terminal with
  | true => exact foldl_holdResource_terminal h _ _ r
  | false =>
    rw [if_neg Bool.false_ne_true]
    exact foldl_holdResource_live h _ _ r

/-- The index changes of one admitted record. -/
theorem Indexed.index {j : Journal τ} {e : Entry τ} (hj : j.Indexed)
    (hsound : Sound crates j.entries) (h : Admits crates j.entries e) : (j.index e).Indexed := by
  have hsep : ∀ x ∈ j.entries, _ := fun x hx => h.separate hsound hx
  constructor
  · intro s id
    show update j.signatures e.signature (some e.id) s = some id ↔ ∃ x ∈ j.entries.insert e, _
    by_cases hs : s = e.signature
    · subst hs
      rw [update_self, Option.some.injEq]
      constructor
      · rintro rfl
        exact ⟨e, Table.mem_insert_self _ _, rfl, rfl⟩
      · rintro ⟨x, hx, hsig, rfl⟩
        obtain rfl | ⟨hmem, hid⟩ := Table.mem_insert.mp hx
        · rfl
        · exact absurd hsig ((hsep x hmem).2 hid).1
    · rw [update_of_ne hs, hj.signatures s id]
      constructor
      · rintro ⟨x, hx, rfl, rfl⟩
        have hid : x.id ≠ e.id := fun hid => hs ((hsep x hx).1 hid).1
        exact ⟨x, Table.mem_insert.mpr (.inr ⟨hx, hid⟩), rfl, rfl⟩
      · rintro ⟨x, hx, rfl, rfl⟩
        obtain rfl | ⟨hmem, -⟩ := Table.mem_insert.mp hx
        · exact absurd rfl hs
        · exact ⟨x, hmem, rfl, rfl⟩
  · intro r id
    show (j.index e).reservations r = some id ↔ ∃ x ∈ j.entries.insert e, _
    rw [index_reservations]
    have hold : ∀ id, j.reservations r = some id ↔ ∃ x ∈ j.entries, _ := hj.reservations r
    cases hterminal : e.phase.terminal with
    | true =>
      -- the resources that the entry held are free, and those of the others stay
      rw [if_pos rfl]
      constructor
      · intro hr
        split at hr
        · cases hr
        · rename_i hkeep
          obtain ⟨x, hx, hlive, hmem, rfl⟩ := (hold id).mp hr
          refine ⟨x, Table.mem_insert.mpr (.inr ⟨hx, fun hid => hkeep ⟨?_, hr.trans (hid ▸ rfl)⟩⟩),
            hlive, hmem, rfl⟩
          exact ((hsep x hx).1 hid).2.1 ▸ hmem
      · rintro ⟨x, hx, hlive, hmem, rfl⟩
        obtain rfl | ⟨hx', hid⟩ := Table.mem_insert.mp hx
        · rw [hterminal] at hlive
          cases hlive
        · have hres := (hold x.id).mpr ⟨x, hx', hlive, hmem, rfl⟩
          rw [hres, if_neg]
          rintro ⟨-, heq⟩
          exact hid (Option.some.inj heq)
    | false =>
      rw [if_neg Bool.false_ne_true]
      by_cases hr : r ∈ e.resources
      · rw [if_pos hr, Option.some.injEq]
        constructor
        · rintro rfl
          exact ⟨e, Table.mem_insert_self _ _, hterminal, hr, rfl⟩
        · rintro ⟨x, hx, hlive, hmem, rfl⟩
          obtain rfl | ⟨hx', hid⟩ := Table.mem_insert.mp hx
          · rfl
          · exact absurd hr (((hsep x hx').2 hid).2 hlive r hmem)
      · rw [if_neg hr, hold id]
        constructor
        · rintro ⟨x, hx, hlive, hmem, rfl⟩
          have hid : x.id ≠ e.id := fun hid => hr (((hsep x hx).1 hid).2.1 ▸ hmem)
          exact ⟨x, Table.mem_insert.mpr (.inr ⟨hx, hid⟩), hlive, hmem, rfl⟩
        · rintro ⟨x, hx, hlive, hmem, rfl⟩
          obtain rfl | ⟨hx', -⟩ := Table.mem_insert.mp hx
          · exact absurd hmem hr
          · exact ⟨x, hx', hlive, hmem, rfl⟩

/-! ## The rebuild -/

theorem foldlM_reserve {e : Entry τ} {resources : List Key} {m : Key → Option String}
    (h : ∀ r ∈ resources, ∀ id ∈ m r, id = e.id) :
    ∃ m', resources.foldlM (reserve e) m = .ok m' ∧
      ∀ r, m' r = if r ∈ resources then some e.id else m r := by
  induction resources generalizing m with
  | nil => exact ⟨m, rfl, fun r => by simp⟩
  | cons x resources ih =>
    obtain ⟨hx, hrest⟩ := List.forall_mem_cons.mp h
    have hstep : reserve e m x = .ok (update m x (some e.id)) := by
      rw [reserve, refuse_of_not, ok_bind]
      rintro ⟨id, hid, hne⟩
      exact hne (hx id hid)
    have hnext : ∀ r ∈ resources, ∀ id ∈ update m x (some e.id) r, id = e.id := by
      intro r hr id hid
      by_cases hrx : r = x
      · subst hrx
        rw [update_self] at hid
        exact (Option.some.inj hid).symm
      · rw [update_of_ne hrx] at hid
        exact hrest r hr id hid
    obtain ⟨m', hm', hval⟩ := ih hnext
    refine ⟨m', by rw [List.foldlM_cons, hstep, ok_bind, hm'], fun r => ?_⟩
    rw [hval]
    by_cases hrx : r = x
    · subst hrx
      simp
    · simp [hrx]

/-- One entry of the rebuild, whose signature and resources the entries so far do not have. -/
theorem rebuildEntry_describes {index : Index} {done : List (Entry τ)} {e : Entry τ}
    (h : index.Describes done) (hsig : ∀ x ∈ done, x.signature ≠ e.signature)
    (hres : e.phase.terminal = false → ∀ x ∈ done, x.phase.terminal = false →
      ∀ r ∈ x.resources, r ∉ e.resources) :
    ∃ index', rebuildEntry index e = .ok index' ∧ index'.Describes (e :: done) := by
  have hfree : index.signatures e.signature = none := by
    apply Option.eq_none_iff_forall_ne_some.mpr
    intro id hid
    obtain ⟨x, hx, heq, -⟩ := (h.signatures _ _).mp hid
    exact hsig x hx heq
  have hsignatures : ∀ s id, update index.signatures e.signature (some e.id) s = some id ↔
      ∃ x ∈ e :: done, x.signature = s ∧ x.id = id := by
    intro s id
    rw [List.exists_mem_cons_iff]
    by_cases hs : s = e.signature
    · subst hs
      rw [update_self, Option.some.injEq]
      exact ⟨fun hid => .inl ⟨rfl, hid⟩, fun hor => hor.elim And.right
        fun ⟨x, hx, heq, _⟩ => absurd heq (hsig x hx)⟩
    · rw [update_of_ne hs, h.signatures]
      exact ⟨.inr, fun hor => hor.resolve_left fun heq => hs heq.1.symm⟩
  have hno : ¬(index.signatures e.signature).isSome = true := by simp [hfree]
  rw [rebuildEntry, refuse_of_not hno, ok_bind]
  cases hterminal : e.phase.terminal with
  | true =>
    refine ⟨_, rfl, hsignatures, fun r id => ?_⟩
    rw [List.exists_mem_cons_iff, h.reservations]
    simp [hterminal]
  | false =>
    have hown : ∀ r ∈ e.resources, ∀ id ∈ index.reservations r, id = e.id := by
      intro r hr id hid
      obtain ⟨x, hx, hlive, hmem, -⟩ := (h.reservations r id).mp hid
      exact absurd hr (hres hterminal x hx hlive r hmem)
    obtain ⟨m, hm, hval⟩ := foldlM_reserve hown
    refine ⟨⟨update index.signatures e.signature (some e.id), m⟩, ?_, hsignatures, fun r id => ?_⟩
    · rw [if_neg Bool.false_ne_true, hm, ok_bind]
    show m r = some id ↔ _
    rw [List.exists_mem_cons_iff, hval, hterminal]
    by_cases hr : r ∈ e.resources
    · rw [if_pos hr, Option.some.injEq]
      exact ⟨fun hid => .inl ⟨rfl, hr, hid⟩, fun hor => hor.elim (fun h => h.2.2)
        fun ⟨x, hx, hlive, hmem, _⟩ => absurd hr (hres hterminal x hx hlive r hmem)⟩
    · rw [if_neg hr, h.reservations]
      exact ⟨.inr, fun hor => hor.resolve_left fun h => hr h.2.1⟩

/-- The rebuild of sound entries succeeds and describes them. -/
theorem rebuild_describes {entries : Entries τ} (hsound : Sound crates entries) :
    ∃ index, rebuild entries.rows = .ok index ∧ index.Describes entries.rows := by
  -- the induction is on the entries not yet read, behind those already indexed
  have hloop : ∀ (rest done : List (Entry τ)) (index : Index), index.Describes done →
      (∀ x, x ∈ done ++ rest → x ∈ entries) → (done ++ rest).Nodup →
      ∃ index', rest.foldlM rebuildEntry index = .ok index' ∧ index'.Describes (done ++ rest) := by
    intro rest
    induction rest with
    | nil =>
      intro done index hindex _ _
      exact ⟨index, rfl, by rwa [List.append_nil]⟩
    | cons e rest ih =>
      intro done index hindex hall hnodup
      have he : e ∈ entries := hall e (by simp)
      have hne : ∀ x ∈ done, x ≠ e := by
        intro x hx heq
        exact (List.nodup_append.mp hnodup).2.2 x hx e List.mem_cons_self heq
      have hdone : ∀ x ∈ done, x ∈ entries := fun x hx => hall x (List.mem_append_left _ hx)
      obtain ⟨index', hstep, hindex'⟩ := rebuildEntry_describes (e := e) hindex
        (fun x hx heq => hne x hx (hsound.signatures x (hdone x hx) e he heq))
        (fun hlive x hx hxlive r hr hr' =>
          hne x hx (hsound.resources x (hdone x hx) e he hxlive hlive r hr hr'))
      have hindex'' : index'.Describes (done ++ [e]) := hindex'.perm (by simp [or_comm])
      have hassoc : done ++ e :: rest = done ++ [e] ++ rest := by simp
      rw [hassoc] at hall hnodup ⊢
      obtain ⟨index₂, hrest, hindex₂⟩ := ih _ _ hindex'' hall hnodup
      exact ⟨index₂, by rw [List.foldlM_cons, hstep, ok_bind, hrest], hindex₂⟩
  exact hloop entries.rows [] _ .nil (fun _ hx => hx) entries.nodup_rows

/-- A journal whose indexes describe sound entries holds the rebuilt ones. -/
theorem Indexed.rebuild {j : Journal τ} (h : j.Indexed) (hsound : Sound crates j.entries) :
    rebuild j.entries.rows = .ok ⟨j.signatures, j.reservations⟩ := by
  obtain ⟨index, hindex, hdescribes⟩ := rebuild_describes hsound
  rw [hindex, hdescribes.unique h]

end StockMesh.Journal
