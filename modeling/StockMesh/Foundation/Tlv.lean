import StockMesh.Foundation.Buffer

/-! # Lists of typed fields

A list of fields in a buffer: each one has a kind of two bytes, a length of two bytes and as many bytes as
the length says, and the next field follows. Where the list ends is a parameter. A buffer holds at most one
list from an offset on (`Fields.unique`). -/

namespace Tlv

/-- A field: its kind and its bytes. -/
abbrev Field := ℕ × List UInt8

/-- The field at an offset. -/
structure FieldAt (d : Buffer) (p : ℕ) (field : Field) : Prop where
  kind : d.number p 2 = some field.1
  length : d.number (p + 2) 2 = some field.2.length
  bytes : d.slice (p + 4) field.2.length = some field.2

/-- The fields from an offset to the end of the list. -/
inductive Fields (d : Buffer) (done : ℕ → Prop) : ℕ → List Field → Prop
  | nil {p : ℕ} (hdone : done p) : Fields d done p []
  | cons {p : ℕ} {field : Field} {fields : List Field} (hopen : ¬done p) (hfield : FieldAt d p field)
      (hrest : Fields d done (p + 4 + field.2.length) fields) : Fields d done p (field :: fields)

variable {d : Buffer} {p : ℕ} {field field' : Field}

/-- What three reads return is the field. -/
theorem fieldAt_of_reads {kind len : ℕ} {bytes : List UInt8} (hkind : d.number p 2 = some kind)
    (hlen : d.number (p + 2) 2 = some len) (hbytes : d.slice (p + 4) len = some bytes) :
    FieldAt d p (kind, bytes) := by
  have heq := Buffer.length_slice hbytes
  subst heq
  exact ⟨hkind, hlen, hbytes⟩

/-- A field lies in the buffer. -/
theorem FieldAt.le_size (h : FieldAt d p field) : p + 4 + field.2.length ≤ d.size :=
  (Buffer.slice_eq_some h.bytes).1

theorem FieldAt.unique (h : FieldAt d p field) (h' : FieldAt d p field') : field = field' := by
  have hkind := Option.some.inj (h.kind.symm.trans h'.kind)
  have hlength := Option.some.inj (h.length.symm.trans h'.length)
  have hbytes := h'.bytes
  rw [← hlength, h.bytes] at hbytes
  exact Prod.ext hkind (Option.some.inj hbytes)

variable {done : ℕ → Prop} {fields fields' : List Field}

/-- A buffer holds one list of fields. -/
theorem Fields.unique (h : Fields d done p fields) (h' : Fields d done p fields') : fields = fields' := by
  induction h generalizing fields' with
  | nil hdone =>
    cases h' with
    | nil => rfl
    | cons hopen => exact absurd hdone hopen
  | cons hopen hfield _ ih =>
    cases h' with
    | nil hdone => exact absurd hdone hopen
    | cons _ hfield' hrest' =>
      obtain rfl := hfield.unique hfield'
      rw [ih hrest']

end Tlv
