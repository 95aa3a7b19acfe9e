import SplLang.Proofs.Homes

/-! What changes when a procedure is entered: its own variables get their places in the new frame,
and the values that are passed become the first words of some. -/
namespace SplLang
open Machine

section
variable {World : Type} {target : Target World} {places : Places target} {types : TypeTable}
  {sig : Signature} {activation bottom limit : Nat}

/-- What a new activation needs: its number is not in use yet, its variables lie where the code
before it left words free, and what is left free under them ends at the limit. -/
structure Places.Fresh (places : Places target) (types : TypeTable) (sig : Signature)
    (activation bottom limit : Nat) : Prop where
  aligned : Aligned target.stack
  unused : places.next ≤ activation
  room : bottom + (sig.localWords types + sig.parameters.length) ≤ places.limit
  under : limit ≤ bottom

/-- The place of a word of storage once an activation has its own variables. -/
def Places.placeWith (places : Places target) (types : TypeTable) (sig : Signature)
    (activation bottom : Nat) (cell : Cell) : Option Word :=
  if cell.activation = activation then
    ((sig.homes types).at? cell.name).bind fun home =>
      if cell.index < home.2 then some (target.slot (bottom + (home.1 + cell.index))) else none
  else places.place? cell

private theorem Places.placeWith_cases {cell : Cell} {a : Word}
    (h : places.placeWith types sig activation bottom cell = some a) :
    (cell.activation = activation ∧ ∃ start words, (cell.name, start, words) ∈ sig.homes types ∧
      cell.index < words ∧ a = target.slot (bottom + (start + cell.index))) ∨
    cell.activation ≠ activation ∧ places.place? cell = some a := by
  unfold placeWith at h
  split at h
  · next hact =>
    obtain ⟨⟨start, words⟩, hat, h⟩ := Option.bind_eq_some_iff.mp h
    split at h
    · next hlt =>
      cases h
      exact .inl ⟨hact, start, words, Keyed.mem_of_at? hat, hlt, rfl⟩
    · cases h
  · next hact => exact .inr ⟨hact, h⟩

namespace Places.Fresh

/-- An own variable lies in words that were free before. -/
theorem home_lt (h : places.Fresh types sig activation bottom limit) {name : Name} {start words i : Nat}
    (hhome : (name, start, words) ∈ sig.homes types) (hi : i < words) :
    bottom + (start + i) < places.limit := by
  have hbound := Signature.home_bound hhome
  have hroom := h.room
  omega

/-- The places with those of the activation's own variables. -/
def entered (h : places.Fresh types sig activation bottom limit) : Places target where
  place? := places.placeWith types sig activation bottom
  limit := limit
  next := activation + 1
  fits := by
    have hfits := places.fits
    have hroom := h.room
    have hunder := h.under
    omega
  injective := by
    intro cell other a hc ho
    rcases placeWith_cases hc with ⟨hact, start, words, hhome, hi, rfl⟩ | ⟨hact, hc⟩ <;>
      rcases placeWith_cases ho with ⟨hact', start', words', hhome', hj, he⟩ | ⟨hact', ho⟩
    · have hsame := places.slot_inj (h.home_lt hhome hi) (h.home_lt hhome' hj) he
      obtain ⟨hname, hindex⟩ := Signature.home_unique hhome hhome' hi hj (by omega)
      cases cell
      cases other
      simp_all
    · exact absurd rfl (places.apart ho (h.home_lt hhome hi))
    · rw [he] at hc
      exact absurd rfl (places.apart hc (h.home_lt hhome' hj))
    · exact places.injective hc ho
  aligned := by
    intro cell a hc
    rcases placeWith_cases hc with ⟨_, start, words, _, _, rfl⟩ | ⟨_, hc⟩
    · exact Target.aligned_slot h.aligned _
    · exact places.aligned hc
  apart := by
    intro cell a k hc hk
    have hunder := h.under
    rcases placeWith_cases hc with ⟨_, start, words, hhome, hi, rfl⟩ | ⟨_, hc⟩
    · intro he
      have hlt := h.home_lt hhome hi
      have hsame := places.slot_inj hlt (by omega) he
      omega
    · have hroom := h.room
      exact places.apart hc (by omega)
  past := by
    intro cell a hc
    rcases placeWith_cases hc with ⟨hact, _⟩ | ⟨_, hc⟩
    · exact hact ▸ Nat.lt_succ_self _
    · have hpast := places.past hc
      have hunused := h.unused
      omega

variable (h : places.Fresh types sig activation bottom limit)

theorem place?_of_ne {cell : Cell} (hne : cell.activation ≠ activation) :
    h.entered.place? cell = places.place? cell := if_neg hne

private theorem place?_own (hd : sig.ownNames.Nodup) {name : Name} {start words i : Nat}
    (hhome : (name, start, words) ∈ sig.homes types) (hi : i < words) :
    h.entered.place? ⟨activation, name, i⟩ = some (target.slot (bottom + (start + i))) := by
  have hat : (sig.homes types).at? name = some (start, words) :=
    Keyed.at?_of_mem (Signature.homes_nodup hd) hhome
  show (if activation = activation then _ else _) = _
  rw [if_pos rfl, hat, Option.bind_some, if_pos hi]

/-- A variable of the new activation lies where its home is. -/
theorem region_own (hd : sig.ownNames.Nodup) {name : Name} {start words : Nat}
    (hhome : (name, start, words) ∈ sig.homes types) :
    h.entered.Region ⟨activation, name, 0⟩ (target.slot (bottom + start)) words := by
  intro k hk
  rw [Target.slot_add, Nat.add_assoc]
  unfold Cell.shift
  rw [Nat.zero_add]
  exact h.place?_own hd hhome hk

/-- What has storage already stays where it is. -/
theorem region_outer {cell : Cell} {base : Word} {words : Nat} (hr : places.Region cell base words) :
    h.entered.Region cell base words := by
  intro k hk
  have hplace := hr k hk
  have hpast := places.past hplace
  have hunused := h.unused
  have hne : (cell.shift k).activation ≠ activation := by omega
  exact (h.place?_of_ne hne).trans hplace

/-- What was left alone before still is. -/
theorem kept {a : Word} (ha : places.Kept a) : h.entered.Kept a where
  free := by
    intro cell hc
    rcases placeWith_cases hc with ⟨_, start, words, hhome, hi, he⟩ | ⟨_, hc⟩
    · exact ha.above _ (h.home_lt hhome hi) he
    · exact ha.free cell hc
  above := by
    intro k hk
    have hroom := h.room
    have hunder := h.under
    have hlt : k < limit := hk
    exact ha.above k (by omega)

/-- A word of the new frame that is no home is left alone. -/
theorem kept_slot {k : Nat} (hlow : limit ≤ k) (hlt : k < places.limit)
    (hfree : ∀ name start words i, (name, start, words) ∈ sig.homes types → i < words →
      k ≠ bottom + (start + i)) : h.entered.Kept (target.slot k) where
  free := by
    intro cell hc
    rcases placeWith_cases hc with ⟨_, start, words, hhome, hi, he⟩ | ⟨_, hc⟩
    · exact hfree _ start words _ hhome hi (places.slot_inj hlt (h.home_lt hhome hi) he)
    · exact places.apart hc hlt rfl
  above := by
    intro j hj he
    have hj' : j < limit := hj
    have hsame := places.slot_inj hlt (by omega) he
    omega

/-- The words between the outgoing arguments and the locals hold what the frame saves. -/
theorem kept_saved {k : Nat} (hlow : limit ≤ k) (hlt : k < bottom) : h.entered.Kept (target.slot k) := by
  have hroom := h.room
  refine h.kept_slot hlow (by omega) ?_
  intro name start words i _ _
  omega

/-- The address that is passed for a reference is left alone. -/
theorem kept_reference {i : Nat} {p : Parameter × TypeId} (hp : sig.parameters[i]? = some p)
    (hr : p.1.byReference = true) :
    h.entered.Kept (target.slot (bottom + (sig.localWords types + i))) := by
  obtain ⟨hlt, -⟩ := List.getElem?_eq_some_iff.mp hp
  have hroom := h.room
  have hunder := h.under
  refine h.kept_slot (by omega) (by omega) ?_
  intro name start words j hhome hj he
  rcases Signature.home_cases hhome with ⟨d, hd, -, hstart, rfl⟩ | ⟨q, hq, -, rfl, rfl⟩
  · have hbounds := Signature.depth_bounds hd
    omega
  · have hnumber : q.2 = i := by omega
    obtain ⟨hget, hvalue⟩ := Signature.mem_valueParameters.mp hq
    rw [hnumber, hp] at hget
    cases hget
    rw [hr] at hvalue
    cases hvalue

end Places.Fresh
end

section
variable {activation : Nat} {parameters : List Parameter} {arguments : List Argument} {store : Store}

/-- A parameter is bound to a cell of its own or to the one that is passed. -/
theorem parameterCells_cases {name : Name} {cell : Cell}
    (h : (name, cell) ∈ parameterCells activation parameters arguments) :
    ∃ (i : Nat) (p : Parameter) (argument : Argument), parameters[i]? = some p ∧
      arguments[i]? = some argument ∧ p.name = name ∧
      cell = match argument with
        | .value _ => ⟨activation, name, 0⟩
        | .reference cell => cell := by
  induction parameters generalizing arguments with
  | nil => cases h
  | cons p parameters ih =>
    cases arguments with
    | nil => cases h
    | cons argument arguments =>
      cases argument with
      | value word =>
        rcases List.mem_cons.mp h with he | hm
        · cases he
          exact ⟨0, p, .value word, rfl, rfl, rfl, rfl⟩
        · obtain ⟨i, q, other, hq, ho, hname, hcell⟩ := ih hm
          exact ⟨i + 1, q, other, hq, ho, hname, hcell⟩
      | reference first =>
        rcases List.mem_cons.mp h with he | hm
        · cases he
          exact ⟨0, p, .reference cell, rfl, rfl, rfl, rfl⟩
        · obtain ⟨i, q, other, hq, ho, hname, hcell⟩ := ih hm
          exact ⟨i + 1, q, other, hq, ho, hname, hcell⟩

/-- Copying values writes the first words of parameters only. -/
theorem copyValues_of_ne {cell : Cell} (h : ∀ p ∈ parameters, cell ≠ ⟨activation, p.name, 0⟩) :
    copyValues activation parameters arguments store cell = store cell := by
  induction parameters generalizing arguments store with
  | nil => cases arguments <;> rfl
  | cons p parameters ih =>
    obtain ⟨hp, hrest⟩ := List.forall_mem_cons.mp h
    cases arguments with
    | nil => rfl
    | cons argument arguments =>
      cases argument with
      | value word => rw [copyValues, ih hrest, Function.update_of_ne hp]
      | reference other => rw [copyValues, ih hrest]

/-- A parameter starts with the value that is passed for it. -/
theorem copyValues_value (hd : (parameters.map (·.name)).Nodup) {i : Nat} {p : Parameter} {word : Word}
    (hp : parameters[i]? = some p) (ha : arguments[i]? = some (.value word)) :
    copyValues activation parameters arguments store ⟨activation, p.name, 0⟩ = word := by
  induction parameters generalizing arguments store i with
  | nil => cases hp
  | cons q parameters ih =>
    rw [List.map_cons, List.nodup_cons] at hd
    cases arguments with
    | nil => cases ha
    | cons argument arguments =>
      cases i with
      | zero =>
        cases hp
        cases ha
        rw [copyValues, copyValues_of_ne, Function.update_self]
        intro other ho he
        have hname : p.name = other.name := congrArg Cell.name he
        exact hd.1 (hname ▸ List.mem_map_of_mem ho)
      | succ i =>
        rw [List.getElem?_cons_succ] at hp ha
        cases argument with
        | value other => exact ih hd.2 hp ha
        | reference other => exact ih hd.2 hp ha

end

section
variable {context : Context} {sigs : List Signature} {area : Signature → OutgoingArea} {sig : Signature}

/-- The code of a body finds a variable where its procedure has it placed. -/
theorem Prepared.placed (hp : Prepared context sigs area) (hs : sig ∈ sigs) {name : Name} {type : TypeId}
    {byReference : Bool} {offset : Int32}
    (hm : (name, .var ⟨type, byReference, some offset⟩) ∈ sig.placed context.types) :
    (sig.body context).placed? name = some (offset, byReference) ∧
      (sig.body context).around.varType? name = some type := by
  have hd : ((sig.placed context.types).map (·.1)).Nodup := by
    rw [Signature.map_fst_placed, ← Signature.map_fst_own]
    exact (hp.fits sig hs).distinct
  have hseen := hp.seen.seen_variable hs name
  rw [Keyed.at?_of_mem hd hm] at hseen
  have hentry : (context.scopes.seen? sig.scope name).bind (·.var?) = some ⟨type, byReference, some offset⟩ :=
    hseen
  refine ⟨?_, ?_⟩
  · simp [Body.placed?, Signature.body, hentry]
  · simp [Body.around, Signature.body, Surroundings.varType?, hentry]

theorem Signature.parameter_placed {types : TypeTable} {i : Nat} {p : Parameter × TypeId}
    (hp : sig.parameters[i]? = some p) :
    (p.1.name, .var ⟨p.2, p.1.byReference, some (parameterOffset i)⟩) ∈ sig.placed types := by
  refine List.mem_append_left _ (List.mem_map.mpr ⟨(p, i), ?_, rfl⟩)
  exact List.mk_mem_zipIdx_iff_getElem?.mpr hp

theorem Signature.local_placed {types : TypeTable} {d : (LocalVariable × TypeId) × Nat}
    (hd : d ∈ sig.depths types) :
    (d.1.1.name, .var ⟨d.1.2, false, some (localOffset d.2)⟩) ∈ sig.placed types :=
  List.mem_append_right _ (List.mem_map.mpr ⟨d, hd, rfl⟩)

/-- A local of the procedure has its depth. -/
theorem Signature.exists_depth {types : TypeTable} (hf : sig.Fits types) {declaration : LocalVariable}
    (hd : declaration ∈ sig.procedure.locals) : ∃ type depth, ((declaration, type), depth) ∈ sig.depths types := by
  have hmap := map_depthsFrom_fst (fun l : LocalVariable × TypeId => l.1) types 0 sig.locals
  rw [← hf.locals_eq, ← hmap] at hd
  obtain ⟨⟨⟨l, type⟩, depth⟩, hm, rfl⟩ := List.mem_map.mp hd
  exact ⟨type, depth, hm⟩

private theorem Signature.parameter_names {types : TypeTable} (sig : Signature) (hf : sig.Fits types) :
    sig.parameters.map (·.1.name) = sig.procedure.parameters.map (·.name) := by
  rw [← hf.parameters_eq, List.map_map]
  rfl

private theorem Signature.local_name_mem {types : TypeTable} {d : (LocalVariable × TypeId) × Nat}
    (hd : d ∈ sig.depths types) : d.1.1.name ∈ sig.locals.map (·.1.name) := by
  rw [← map_depthsFrom_fst (fun l : LocalVariable × TypeId => l.1.name) types 0 sig.locals]
  exact List.mem_map_of_mem hd

theorem Signature.exists_parameter {types : TypeTable} (hf : sig.Fits types) {i : Nat} {p : Parameter}
    (hp : sig.procedure.parameters[i]? = some p) : ∃ type, sig.parameters[i]? = some (p, type) := by
  rw [← hf.parameters_eq, List.getElem?_map, Option.map_eq_some_iff] at hp
  obtain ⟨⟨q, type⟩, hq, rfl⟩ := hp
  exact ⟨type, hq⟩

section
variable {World : Type} {target : Target World} {places : Places target} {activation bottom limit : Nat}
  {arguments : List Argument} {memory : Word → Word}

private theorem Target.parameter_slot {top i : Nat} :
    target.slot top + (Signature.parameterOffset i).toBitVec = target.slot (top + i) := by
  have hoffset : (Signature.parameterOffset i).toBitVec = BitVec.ofNat 32 (4 * i) := BitVec.ofInt_natCast 32 _
  rw [hoffset, Target.slot_add]

theorem Target.local_slot {low depth : Nat} :
    target.slot (low + depth) + (Signature.localOffset depth).toBitVec = target.slot low := by
  have hoffset : (Signature.localOffset depth).toBitVec = -BitVec.ofNat 32 (4 * depth) := by
    show BitVec.ofInt 32 (-(4 * depth : Nat)) = _
    rw [BitVec.ofInt_neg, BitVec.ofInt_natCast]
  rw [hoffset, ← BitVec.sub_eq_add_neg, Target.slot_sub]

variable (hp : Prepared context sigs area) (hs : sig ∈ sigs)
  (h : places.Fresh context.types sig activation bottom limit)
  (hpassed : places.Passed context.types memory (bottom + sig.localWords context.types) sig.parameterKinds arguments)
include hp hs hpassed

/-- The code of the body finds parameters and locals. -/
theorem Places.Fresh.binds :
    h.entered.Binds (sig.body context)
      (parameterCells activation sig.procedure.parameters arguments ++
        sig.procedure.locals.map fun declaration => (declaration.name, ⟨activation, declaration.name, 0⟩))
      (target.slot (bottom + sig.localWords context.types)) memory := by
  have hdistinct : sig.ownNames.Nodup := by
    rw [← Signature.map_fst_own]
    exact (hp.fits sig hs).distinct
  intro name cell type hc ht
  rcases List.mem_append.mp (Keyed.mem_of_at? hc) with hm | hm
  · obtain ⟨i, p, argument, hget, harg, rfl, rfl⟩ := parameterCells_cases hm
    obtain ⟨own, hown⟩ := Signature.exists_parameter (hp.fits sig hs) hget
    obtain ⟨hplaced, htype⟩ := hp.placed hs (Signature.parameter_placed hown)
    rw [htype] at ht
    cases ht
    have hkind : sig.parameterKinds[i]? = some (own, p.byReference) := by
      rw [Signature.parameterKinds, List.getElem?_map, hown]
      rfl
    have hpasses := hpassed.get hkind harg
    have haddress : target.slot (bottom + sig.localWords context.types) + (Signature.parameterOffset i).toBitVec =
        target.slot (bottom + sig.localWords context.types + i) := Target.parameter_slot
    cases argument with
    | value word =>
      have hvalue : p.byReference = false := hpasses.1
      have hint : own = TypeId.int := ((hp.fits sig hs).parameters _ (List.mem_of_getElem? hown)).2 hvalue
      have hone : context.types.words own = 1 := by
        rw [hint, hp.built.words_int]
      refine ⟨_, _, target.slot (bottom + sig.localWords context.types + i), hplaced, ?_, ?_⟩
      · show h.entered.Region _ _ (context.types.words own)
        rw [hone, Nat.add_assoc]
        exact h.region_own hdistinct (Signature.value_home hown hvalue)
      · rw [show (p, own).1.byReference = false from hvalue]
        exact haddress
    | reference cell =>
      obtain ⟨hreference, hregion⟩ := hpasses
      refine ⟨_, _, memory (target.slot (bottom + sig.localWords context.types + i)), hplaced,
        h.region_outer hregion, ?_⟩
      rw [show (p, own).1.byReference = true from hreference, haddress, Nat.add_assoc]
      exact ⟨Target.aligned_slot h.aligned _, h.kept_reference hown hreference, rfl⟩
  · obtain ⟨declaration, hd, he⟩ := List.mem_map.mp hm
    cases he
    obtain ⟨own, depth, hdepth⟩ := Signature.exists_depth (hp.fits sig hs) hd
    obtain ⟨hplaced, htype⟩ := hp.placed hs (Signature.local_placed hdepth)
    rw [htype] at ht
    cases ht
    obtain ⟨-, hle⟩ := Signature.depth_bounds hdepth
    have hsum : bottom + sig.localWords context.types = bottom + (sig.localWords context.types - depth) + depth := by
      omega
    refine ⟨_, _, target.slot (bottom + (sig.localWords context.types - depth)), hplaced,
      h.region_own hdistinct (Signature.local_home hdepth), ?_⟩
    rw [hsum]
    exact Target.local_slot

/-- The locals hold what the store has for them. -/
def Places.Primed (target : Target World) (types : TypeTable) (sig : Signature) (activation bottom : Nat)
    (store : Store) (memory : Word → Word) : Prop :=
  ∀ d ∈ sig.depths types, ∀ k < types.words d.1.2,
    memory (target.slot (bottom + (sig.localWords types - d.2 + k))) = store ⟨activation, d.1.1.name, k⟩

/-- With the values copied, the store holds at the places of the new activation too. -/
theorem Places.Fresh.stores {store : Store} {after : Word → Word} (hstores : places.Stores store memory)
    (hprimed : Places.Primed target context.types sig activation bottom store memory)
    (hm : ∀ a, (∀ k, limit ≤ k → k < bottom → a ≠ target.slot k) → after a = memory a) :
    h.entered.Stores (copyValues activation sig.procedure.parameters arguments store) after := by
  have hroom := h.room
  have hhome : ∀ {name start words i}, (name, start, words) ∈ sig.homes context.types → i < words →
      after (target.slot (bottom + (start + i))) = memory (target.slot (bottom + (start + i))) := by
    intro name start words i hhome hi
    apply hm
    intro k _ hk he
    have hlt := h.home_lt hhome hi
    have hsame := places.slot_inj hlt (by omega) he
    omega
  have hf := hp.fits sig hs
  have hdistinct := hf.distinct
  rw [Signature.map_fst_own, Signature.ownNames, List.nodup_append] at hdistinct
  obtain ⟨hparameters, -, hapart⟩ := hdistinct
  rw [sig.parameter_names hf] at hparameters hapart
  intro cell a hc
  rcases Places.placeWith_cases hc with ⟨hact, start, words, hmem, hi, rfl⟩ | ⟨hact, hplace⟩
  · rw [hhome hmem hi]
    obtain ⟨_, name, index⟩ := cell
    cases hact
    rcases Signature.home_cases hmem with ⟨d, hd, rfl, hstart, rfl⟩ | ⟨p, hmp, rfl, rfl, rfl⟩
    · rw [copyValues_of_ne, ← hprimed d hd index hi, ← Nat.eq_sub_of_add_eq hstart]
      intro p hmp he
      have hname : d.1.1.name = p.name := congrArg Cell.name he
      exact hapart _ (List.mem_map_of_mem hmp) _ (Signature.local_name_mem hd) hname.symm
    · obtain rfl := Nat.lt_one_iff.mp hi
      obtain ⟨hown, hvalue⟩ := Signature.mem_valueParameters.mp hmp
      have hkind : sig.parameterKinds[p.2]? = some (p.1.2, false) := by
        rw [Signature.parameterKinds, List.getElem?_map, hown, Option.map_some, hvalue]
      have hget : sig.procedure.parameters[p.2]? = some p.1.1 := by
        rw [← hf.parameters_eq, List.getElem?_map, hown]
        rfl
      rw [copyValues_value hparameters hget (hpassed.value hkind), Nat.add_zero, Nat.add_assoc]
  · rw [copyValues_of_ne, ← hstores cell a hplace]
    · apply hm
      intro k _ hk
      exact places.apart hplace (by omega)
    · rintro p _ rfl
      exact hact rfl

end
end
end SplLang
