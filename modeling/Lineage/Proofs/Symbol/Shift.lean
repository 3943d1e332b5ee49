import Lineage.Proofs.Recovery.Outcome
import Lineage.Proofs.Recovery.Bodies

/-!
# Symbols of an image that is loaded higher

An image base is the first summand of every address. So an image that is loaded `k` bytes higher has
the same symbols, each `k` bytes higher, unless one of them no longer fits in 64 bits. A sum that
fits with the higher base fits with the lower one, and so reading the symbols for the lower base
succeeds wherever it does for the higher.

Addresses are compared on the way, since the repeat of a procedure at its address is dropped.
Shifting keeps addresses apart (`Address.biUnique_shifted`), which is why the same
procedures are dropped.

`Follows` is the relation of two outcomes that carries this: where the run with the higher base
succeeds, so does the other, with a related result. It says nothing of a run with the higher base
that fails. It is closed under going on and under loops, so each reader of symbols has one lemma,
and the loops carry the lists that have been read so far.

Main result: `Symbol.follows_tablesOf`.
-/

namespace Lineage

/-! ## Addresses -/

/-- The second address lies a number of bytes above the first one, without wrapping around. -/
def Address.Shifted (k : UInt64) (x y : Address) : Prop := x.add? k = some y

namespace Address

variable {k : UInt64} {x y : Address}

theorem shifted_iff : Shifted k x y ↔ y.value.toNat = x.value.toNat + k.toNat := add?_eq_some_iff

/-- Different addresses are shifted to different addresses. -/
theorem biUnique_shifted (k : UInt64) : Relator.BiUnique (Shifted k) := by
  refine ⟨fun x x' y h h' => ?_, fun x y y' h h' => Option.some.inj (h.symm.trans h')⟩
  obtain ⟨x⟩ := x
  obtain ⟨x'⟩ := x'
  rw [shifted_iff] at h h'
  have same : x.toNat = x'.toNat := Nat.add_right_cancel (h.symm.trans h')
  rw [UInt64.toNat_inj.1 same]

/-- What is added to the higher address can be added to the lower one. -/
theorem exists_add?_of_shifted (h : Shifted k x y) {offset : UInt64} {z : Address}
    (hz : y.add? offset = some z) : ∃ w, x.add? offset = some w ∧ Shifted k w z := by
  rw [shifted_iff] at h
  rw [add?_eq_some_iff, h, Nat.add_right_comm] at hz
  have hlt : x.value.toNat + offset.toNat < UInt64.size := by
    have := z.value.toNat_lt_size
    omega
  refine ⟨_, if_pos hlt, shifted_iff.2 ?_⟩
  rw [hz, UInt64.toNat_add, Nat.mod_eq_of_lt hlt]

end Address

/-! ## Following another run -/

section Follows

variable {α β γ δ : Type} {R : α → β → Prop} {S : γ → δ → Prop}

/-- Wherever the second run succeeds, so does the first, with a related result. -/
def Follows (R : α → β → Prop) (x : Except Fault α) (y : Except Fault β) : Prop :=
  ∀ b, y = .ok b → ∃ a, x = .ok a ∧ R a b

/-- What has succeeded is followed by what has succeeded with a related result. -/
theorem follows_ok {a : α} {b : β} (h : R a b) : Follows R (.ok a) (.ok b) := by
  intro c hc
  obtain rfl := Except.ok.inj hc
  exact ⟨a, rfl, h⟩

/-- A run that fails need not be followed. -/
theorem follows_error (x : Except Fault α) (e : Fault) : Follows R x (.error e) :=
  fun _ hc => by cases hc

theorem follows_self (x : Except Fault α) : Follows Eq x x := fun a ha => ⟨a, ha, rfl⟩

/-- What goes on with related results is followed, step after step. -/
theorem follows_bind {x : Except Fault α} {y : Except Fault β} {f : α → Except Fault γ}
    {g : β → Except Fault δ} (h : Follows R x y) (hfg : ∀ a b, R a b → Follows S (f a) (g b)) :
    Follows S (x >>= f) (y >>= g) := by
  intro d hd
  obtain ⟨b, hb, hgb⟩ := bind_eq_ok_iff.1 hd
  obtain ⟨a, ha, hab⟩ := h b hb
  obtain ⟨c, hc, hcd⟩ := hfg a b hab d hgb
  exact ⟨c, bind_eq_ok_iff.2 ⟨a, ha, hc⟩, hcd⟩

/-- A loop over the same elements, whose states are related. -/
theorem follows_foldlM {f : α → γ → Except Fault α} {g : β → γ → Except Fault β}
    (hfg : ∀ a b c, R a b → Follows R (f a c) (g b c)) (cs : List γ) {a : α} {b : β}
    (h : R a b) : Follows R (cs.foldlM f a) (cs.foldlM g b) := by
  induction cs generalizing a b with
  | nil => exact follows_ok h
  | cons c cs ih =>
    rw [List.foldlM_cons, List.foldlM_cons]
    exact follows_bind (hfg a b c h) fun a b h => ih h

end Follows

/-! ## Layouts -/

/-- The same sections in an image that is loaded higher. -/
structure Image.Layout.Shifted (k : UInt64) (low high : Layout) : Prop where
  headers : high.headers = low.headers
  imageBase : Address.Shifted k ⟨low.imageBase⟩ ⟨high.imageBase⟩

namespace Image.Layout

variable {k : UInt64} {low high : Layout}

/-- The sections of the image are numbered alike. -/
theorem Shifted.header?_eq (h : Shifted k low high) (number : UInt16) :
    high.header? number = low.header? number := by
  rw [header?, header?, knownHeaders, knownHeaders, h.headers]

/-- A sum that fits with the higher base fits with the lower one. -/
theorem Shifted.exists_locate? (h : Shifted k low high) {number : UInt16} {offset : UInt64}
    {y : Address} (hy : high.locate? number offset = some y) :
    ∃ x, low.locate? number offset = some x ∧ Address.Shifted k x y := by
  simp only [locate?, bind, Option.bind_eq_some_iff] at hy ⊢
  obtain ⟨header, hheader, start, hstart, hoffset⟩ := hy
  obtain ⟨start', hstart', hs⟩ := Address.exists_add?_of_shifted h.imageBase hstart
  obtain ⟨x, hx, hxy⟩ := Address.exists_add?_of_shifted hs hoffset
  exact ⟨x, ⟨header, h.header?_eq number ▸ hheader, start', hstart', hx⟩, hxy⟩

/-- A place that has an address in the image that is loaded higher has one in the other. -/
theorem Shifted.follows_resolve (h : Shifted k low high) (number : UInt16) (offset : UInt64)
    (n : Nat) (line : Text) :
    Follows (Address.Shifted k) (low.resolve number offset n line)
      (high.resolve number offset n line) := by
  rw [resolve, resolve, h.headers, h.header?_eq]
  split
  next => exact follows_error _ _
  next =>
    split
    next => exact follows_error _ _
    next =>
      cases hy : high.locate? number offset with
      | none => exact follows_error _ _
      | some y =>
        obtain ⟨x, hx, hxy⟩ := h.exists_locate? hy
        rw [hx]
        exact follows_ok hxy

/-- The headers of a dump say nothing of the image base. -/
theorem follows_ofDump (d : Dump) {a b : UInt64} (h : Address.Shifted k ⟨a⟩ ⟨b⟩) :
    Follows (Shifted k) (ofDump d a) (ofDump d b) := by
  unfold ofDump
  split
  next =>
    refine follows_bind (follows_self (headersOf d)) ?_
    rintro headers _ rfl
    exact follows_ok ⟨rfl, h⟩
  next => exact follows_ok ⟨rfl, h⟩

end Image.Layout

/-! ## Symbols -/

/-- The same procedure at a higher address. -/
structure Procedure.Shifted (k : UInt64) (p q : Procedure) : Prop where
  name : q.name = p.name
  type : q.type = p.type
  address : Address.Shifted k p.address q.address

/-- The same public symbol at a higher address. -/
structure PublicSymbol.Shifted (k : UInt64) (p q : PublicSymbol) : Prop where
  mangled : q.mangled = p.mangled
  address : Address.Shifted k p.address q.address

namespace Symbol

open Image.Layout (Shifted)

variable {k : UInt64} {low high : Image.Layout}

/-- The same symbols in an image that is loaded higher. -/
structure Tables.Shifted (k : UInt64) (s t : Tables) : Prop where
  layout : s.layout.Shifted k t.layout
  procedures : List.Forall₂ (Procedure.Shifted k) s.procedures t.procedures
  publics : List.Forall₂ (PublicSymbol.Shifted k) s.publics t.publics

theorem follows_address (h : Shifted k low high) (p : Place) (n : Nat) (line : Text) :
    Follows (Address.Shifted k) (p.address low n line) (p.address high n line) := by
  unfold Place.address
  split
  next => exact follows_error _ _
  next =>
    split
    next => exact follows_error _ _
    next => exact h.follows_resolve _ _ n line

/-- Only the address of a procedure depends on the base. -/
theorem follows_readProcedure (h : Shifted k low high) (line : Text) (n : Nat) :
    Follows (Procedure.Shifted k) (readProcedure line n low) (readProcedure line n high) := by
  unfold readProcedure
  split
  next => exact follows_error _ _
  next place type name _ =>
    refine follows_bind (follows_address h place n line) fun x y hxy => ?_
    exact follows_ok ⟨rfl, rfl, hxy⟩

/-- Only the address of a public symbol depends on the base. -/
theorem follows_readPublic (h : Shifted k low high) (line : Text) (n : Nat) :
    Follows (PublicSymbol.Shifted k) (readPublic line n low) (readPublic line n high) := by
  unfold readPublic
  split
  next => exact follows_error _ _
  next place mangled _ =>
    refine follows_bind (follows_address h place n line) fun x y hxy => ?_
    exact follows_ok ⟨rfl, hxy⟩

/-- A procedure is a repeat at the higher addresses if it is one at the lower. -/
theorem any_of_shifted {ps qs : List Procedure} (h : List.Forall₂ (Procedure.Shifted k) ps qs)
    {p q : Procedure} (hpq : p.Shifted k q) :
    (qs.any fun r => r.address = q.address && r.name == q.name) =
      ps.any fun r => r.address = p.address && r.name == p.name := by
  induction h with
  | nil => rfl
  | cons hr _ ih =>
    have same := Relator.rel_eq (Address.biUnique_shifted k) hr.address hpq.address
    rw [List.any_cons, List.any_cons, ih, hr.name, hpq.name, decide_eq_decide.2 same]

/-- A procedure is dropped as a repeat in both runs or in neither. -/
theorem shifted_addProcedure {ps qs : List Procedure}
    (h : List.Forall₂ (Procedure.Shifted k) ps qs) {p q : Procedure} (hpq : p.Shifted k q) :
    List.Forall₂ (Procedure.Shifted k) (addProcedure ps p) (addProcedure qs q) := by
  rw [addProcedure, addProcedure, any_of_shifted h hpq]
  split
  next => exact h
  next => exact List.rel_append h (.cons hpq .nil)

/-- The loop over the lines of one section, with the procedures found so far. -/
theorem follows_readProcedures (h : Shifted k low high) {ps qs : List Procedure}
    (hps : List.Forall₂ (Procedure.Shifted k) ps qs) (n : Nat) (lines : List Text) :
    Follows (List.Forall₂ (Procedure.Shifted k)) (readProcedures low ps n lines)
      (readProcedures high qs n lines) := by
  induction lines generalizing ps qs n with
  | nil => exact follows_ok hps
  | cons line rest ih =>
    rw [readProcedures_cons, readProcedures_cons]
    split
    next =>
      refine follows_bind (follows_readProcedure h line (n + 1)) fun p q hpq => ?_
      exact ih (shifted_addProcedure hps hpq) (n + 1)
    next => exact ih hps (n + 1)

theorem follows_readPublics (h : Shifted k low high) {done done' : List PublicSymbol}
    (hdone : List.Forall₂ (PublicSymbol.Shifted k) done done') (n : Nat) (lines : List Text) :
    Follows (List.Forall₂ (PublicSymbol.Shifted k)) (readPublics low done n lines)
      (readPublics high done' n lines) := by
  induction lines generalizing done done' n with
  | nil => exact follows_ok (List.rel_reverse hdone)
  | cons line rest ih =>
    rw [readPublics_cons, readPublics_cons]
    split
    next =>
      refine follows_bind (follows_readPublic h line (n + 1)) fun p q hpq => ?_
      exact ih (.cons hpq hdone) (n + 1)
    next => exact ih hdone (n + 1)

/-- The loop over the sections that have procedures. -/
theorem follows_proceduresOf (h : Shifted k low high) (d : Dump) :
    Follows (List.Forall₂ (Procedure.Shifted k)) (proceduresOf d low) (proceduresOf d high) := by
  refine follows_foldlM (fun ps qs s hps => ?_) procedureSections .nil
  rw [readProcedureSection_eq, readProcedureSection_eq]
  split
  next c _ => exact follows_readProcedures h hps c.line c.rest
  next => exact follows_ok hps

theorem follows_publicsOf (h : Shifted k low high) (d : Dump) :
    Follows (List.Forall₂ (PublicSymbol.Shifted k)) (publicsOf d low) (publicsOf d high) := by
  rw [publicsOf_eq, publicsOf_eq]
  split
  next c _ => exact follows_readPublics h .nil c.line c.rest
  next => exact follows_ok .nil

/-- Where the symbols of a dump can be read for an image base, they can for a lower one. -/
theorem follows_tablesOf (d : Dump) (usePublics : Bool) {a b : UInt64}
    (h : Address.Shifted k ⟨a⟩ ⟨b⟩) :
    Follows (Tables.Shifted k) (tablesOf d a usePublics) (tablesOf d b usePublics) := by
  refine follows_bind (Image.Layout.follows_ofDump d h) fun low high hlayout => ?_
  refine follows_bind (follows_proceduresOf hlayout d) fun ps qs hps => ?_
  have hpublics : Follows (List.Forall₂ (PublicSymbol.Shifted k))
      (if usePublics then publicsOf d low else .ok [])
      (if usePublics then publicsOf d high else .ok []) := by
    split
    next => exact follows_publicsOf hlayout d
    next => exact follows_ok .nil
  refine follows_bind hpublics fun publics publics' hpubs => ?_
  exact follows_ok ⟨hlayout, hps, hpubs⟩

end Symbol
end Lineage
