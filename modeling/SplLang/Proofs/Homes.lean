import SplLang.Proofs.Frames

/-! The words of a frame that belong to the variables of a procedure. They are counted from the
lowest word of the locals; the parameters follow behind the last one. -/
namespace SplLang
open Machine

namespace Signature
variable {types : TypeTable} {sig : Signature}

/-- The parameters passed by value, with their numbers. -/
def valueParameters (sig : Signature) : List ((Parameter × TypeId) × Nat) :=
  sig.parameters.zipIdx.filter fun p => !p.1.1.byReference

/-- For each variable of its own the first word and how many there are. -/
def homes (types : TypeTable) (sig : Signature) : Keyed Name (Nat × Nat) :=
  (sig.depths types).map (fun d => (d.1.1.name, sig.localWords types - d.2, types.words d.1.2)) ++
    sig.valueParameters.map fun p => (p.1.1.name, sig.localWords types + p.2, 1)

private theorem depthsFrom_bounds {below : Nat} {locals : List (LocalVariable × TypeId)}
    {d : (LocalVariable × TypeId) × Nat} (hd : d ∈ depthsFrom types below locals) :
    below + types.words d.1.2 ≤ d.2 ∧ d.2 ≤ below + (locals.map fun l => types.words l.2).sum := by
  induction locals generalizing below with
  | nil => cases hd
  | cons l locals ih =>
    rw [List.map_cons, List.sum_cons]
    rcases List.mem_cons.mp hd with rfl | hd
    · exact ⟨Nat.le_refl _, by omega⟩
    · obtain ⟨hlow, hhigh⟩ := ih hd
      exact ⟨by omega, by omega⟩

private theorem depthsFrom_apart {below : Nat} {locals : List (LocalVariable × TypeId)}
    {d e : (LocalVariable × TypeId) × Nat} (hd : d ∈ depthsFrom types below locals)
    (he : e ∈ depthsFrom types below locals) :
    d = e ∨ d.2 + types.words e.1.2 ≤ e.2 ∨ e.2 + types.words d.1.2 ≤ d.2 := by
  induction locals generalizing below with
  | nil => cases hd
  | cons l locals ih =>
    rcases List.mem_cons.mp hd with rfl | hd <;> rcases List.mem_cons.mp he with rfl | he
    · exact .inl rfl
    · exact .inr (.inl (depthsFrom_bounds he).1)
    · exact .inr (.inr (depthsFrom_bounds hd).1)
    · exact ih hd he

theorem depth_bounds {d : (LocalVariable × TypeId) × Nat} (hd : d ∈ sig.depths types) :
    types.words d.1.2 ≤ d.2 ∧ d.2 ≤ sig.localWords types := by
  have hbounds := depthsFrom_bounds hd
  rw [Nat.zero_add, Nat.zero_add] at hbounds
  exact hbounds

theorem mem_valueParameters {p : (Parameter × TypeId) × Nat} :
    p ∈ sig.valueParameters ↔ sig.parameters[p.2]? = some p.1 ∧ p.1.1.byReference = false := by
  unfold valueParameters
  rw [List.mem_filter, List.mem_zipIdx_iff_getElem?]
  simp

theorem local_home {d : (LocalVariable × TypeId) × Nat} (hd : d ∈ sig.depths types) :
    (d.1.1.name, sig.localWords types - d.2, types.words d.1.2) ∈ sig.homes types :=
  List.mem_append_left _ (List.mem_map.mpr ⟨d, hd, rfl⟩)

theorem value_home {i : Nat} {p : Parameter × TypeId} (hp : sig.parameters[i]? = some p)
    (hv : p.1.byReference = false) : (p.1.name, sig.localWords types + i, 1) ∈ sig.homes types :=
  List.mem_append_right _ (List.mem_map.mpr ⟨(p, i), mem_valueParameters.mpr ⟨hp, hv⟩, rfl⟩)

/-- Whose home it is. -/
theorem home_cases {name : Name} {start words : Nat} (h : (name, start, words) ∈ sig.homes types) :
    (∃ d ∈ sig.depths types, d.1.1.name = name ∧ start + d.2 = sig.localWords types ∧
      words = types.words d.1.2) ∨
    ∃ p ∈ sig.valueParameters, p.1.1.name = name ∧ start = sig.localWords types + p.2 ∧ words = 1 := by
  rcases List.mem_append.mp h with h | h
  · obtain ⟨d, hd, he⟩ := List.mem_map.mp h
    have hbounds := depth_bounds hd
    cases he
    exact .inl ⟨d, hd, rfl, by omega, rfl⟩
  · obtain ⟨p, hp, he⟩ := List.mem_map.mp h
    cases he
    exact .inr ⟨p, hp, rfl, rfl, rfl⟩

/-- The words lie below those of the parameters that follow. -/
theorem home_bound {name : Name} {start words : Nat} (h : (name, start, words) ∈ sig.homes types) :
    start + words ≤ sig.localWords types + sig.parameters.length := by
  rcases home_cases h with ⟨d, hd, -, hstart, rfl⟩ | ⟨p, hp, -, rfl, rfl⟩
  · have hbounds := depth_bounds hd
    omega
  · obtain ⟨hlt, -⟩ := List.getElem?_eq_some_iff.mp (mem_valueParameters.mp hp).1
    omega

/-- No word belongs to two variables. -/
theorem home_unique {name name' : Name} {start start' words words' i j : Nat}
    (h : (name, start, words) ∈ sig.homes types) (h' : (name', start', words') ∈ sig.homes types)
    (hi : i < words) (hj : j < words') (he : start + i = start' + j) : name = name' ∧ i = j := by
  rcases home_cases h with ⟨d, hd, rfl, hs, rfl⟩ | ⟨p, hp, rfl, rfl, rfl⟩ <;>
    rcases home_cases h' with ⟨d', hd', rfl, hs', rfl⟩ | ⟨p', hp', rfl, rfl, rfl⟩
  · have hbounds := depth_bounds hd
    have hbounds' := depth_bounds hd'
    rcases depthsFrom_apart hd hd' with rfl | hapart
    · exact ⟨rfl, by omega⟩
    · omega
  · have hbounds := depth_bounds hd
    omega
  · have hbounds := depth_bounds hd'
    omega
  · have hnumber : p.2 = p'.2 := by omega
    have hget := (mem_valueParameters.mp hp).1
    rw [hnumber, (mem_valueParameters.mp hp').1] at hget
    rw [Option.some.inj hget]
    exact ⟨rfl, by omega⟩

/-- No two variables of a procedure share their name. -/
theorem homes_nodup (hd : sig.ownNames.Nodup) : ((sig.homes types).map (·.1)).Nodup := by
  unfold homes
  rw [List.map_append, List.map_map, List.map_map, List.nodup_append_comm]
  refine hd.sublist (List.Sublist.append ?_ ?_)
  · have hsub := (List.filter_sublist (l := sig.parameters.zipIdx) (p := fun p => !p.1.1.byReference)).map
      fun p => p.1.1.name
    rw [map_zipIdx_fst fun p : Parameter × TypeId => p.1.name] at hsub
    exact hsub
  · exact (map_depthsFrom_fst (fun l : LocalVariable × TypeId => l.1.name) _ _ _).symm ▸ .refl _

end Signature
end SplLang
