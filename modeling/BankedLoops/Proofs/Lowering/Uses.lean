import BankedLoops.Proofs.Lowering.Houses

/-!
# Uses of names

Every use of a name in the split program leads to the cells of the declaration that the name has in
the source: an expression over banks differs only in its names from the located form of the
expression over arrays. So do targets and the arguments of calls.
-/

namespace BankedLoops

namespace Lowering

section

variable {arrays names : List String} {ctx : Banking.Context} {rotors : List (String × TypedExpr)}
  {stage : Stage} {low : Env} {env : Banking.Env} {tctx : Typing.Context}

theorem Turn.renames {rotation : Banking.Rotation} {rotor : TypedExpr} {ty : Ty}
    (nodup : (cellsOf stage.ledger).Nodup) (turn : Turn names stage.ledger low rotation rotor)
    (typed : rotation.ty = .ok ty) :
    Renames low (cellEnv stage.ledger) (.var ty rotation.register) rotor := by
  obtain ⟨ty', cell, width, typed', rfl, found, member⟩ := turn.stored
  rw [typed] at typed'
  cases typed'
  exact .var ty found (@get?_cellEnv _ nodup (.register cell width) member) (by simp)

/-- The located forms of placed indices, addresses and terms of the bank number. -/
structure LocatedPlacement (rotors : List (String × TypedExpr)) (stage : Stage) (low : Env)
    (idxs : List TypedExpr) (p : Banking.Placement) : Prop where
  located : ∃ idxs' addr terms, LocatedAll stage.scope stage.ledger rotors idxs idxs' ∧
    List.Forall₂ (fun idx a => Over [idx] a) idxs' addr ∧
    RenamesAll low (cellEnv stage.ledger) p.addr addr ∧
    (∀ term ∈ terms, Over idxs' term) ∧ RenamesAll low (cellEnv stage.ledger) p.terms terms

/-- A resolved access uses the memories of its array. -/
theorem located_resolved (built : Built arrays names ctx.rotations rotors stage low) {name : String}
    {elem ty : Ty} {dims : List Dim} {d : Nat} {writes : Bool} {p : Banking.Placement}
    {idxs : List TypedExpr} {e : TypedExpr}
    (bound : stage.scope.get? name = some (.array elem dims, d))
    (placed : LocatedPlacement rotors stage low idxs p)
    (resolved : Banking.ResolvedAs ctx name ⟨name, elem, dims⟩ ty writes p e) :
    ∃ e', Located stage.scope stage.ledger rotors (.access ty name idxs) e' ∧
      Renames low (cellEnv stage.ledger) e e' ∧
      (writes = true → RenamesTarget low (cellEnv stage.ledger) e e') := by
  obtain ⟨idxs', addr, terms, located, addressed, renamed, spans, renamedTerms⟩ := placed.located
  cases resolved with
  | @direct banks bank named known fixed found =>
    obtain ⟨memories, stored, count, same⟩ := built.sameMemory bound
    have inside : p.base < Banking.bankTotal dims := by
      have lt := (List.getElem?_eq_some_iff.mp found).1
      rwa [Layout.length_banks named] at lt
    have bankIs := Layout.getElem?_banks named inside
    rw [found, Option.some.injEq] at bankIs
    subst bankIs
    obtain ⟨m, stores⟩ : ∃ m, memories[p.base]? = some m :=
      ⟨_, List.getElem?_eq_getElem (by omega)⟩
    exact ⟨_, .direct bound stored (List.mem_of_getElem? stores) located addressed,
      .mem ty (same _ m stores) renamed, fun _ => .element ty (same _ m stores) renamed⟩
  | @multiplexed banks flat select named reads varies summed selected =>
    obtain ⟨memories, stored, same⟩ := built.sameMemories bound named
    obtain ⟨flat', overFlat, renamesFlat⟩ := (Over.selector summed).renames renamedTerms
    have overFlat : Over idxs' flat' := overFlat.trans spans
    have written : writes = true → RenamesTarget low (cellEnv stage.ledger)
        (.muxRead ty banks select p.addr) (.muxRead ty (memories.map (·.cell)) flat' addr) := by
      intro writes
      rw [writes] at reads
      cases reads
    obtain ⟨_, rfl⟩ | ⟨r, rotorTy, sum, rotation, typed, added, wrapped⟩ := Banking.rotated_cases selected
    · refine ⟨_, .multiplexed bound stored located (overFlat.mono ?_) addressed,
        .muxRead ty same renamesFlat renamed, written⟩
      exact List.subset_append_right _ _
    · obtain ⟨rotor, found, turn⟩ := built.turns.lookup_some rotation
      have overSum : Over [flat, .var rotorTy r.register] select :=
        .wrap (.widened (.leaf List.mem_cons_self)
          (.leaf (List.mem_cons_of_mem _ List.mem_cons_self)) added) wrapped
      obtain ⟨select', overSelect, renamesSelect⟩ := overSum.renames
        (.cons renamesFlat (.cons (turn.renames built.nodup typed) .nil))
      refine ⟨_, .multiplexed bound stored located ?_ addressed,
        .muxRead ty same renamesSelect renamed, ?_⟩
      · refine overSelect.trans ?_
        intro leaf member
        rw [found, Option.toList_some]
        rcases List.mem_cons.mp member with rfl | member
        · exact overFlat.mono (List.subset_append_right _ _)
        · rw [List.mem_singleton.mp member]
          exact .leaf List.mem_cons_self
      · intro writes
        rw [writes] at reads
        cases reads

mutual

/-- An expression that is read. -/
theorem located_read (built : Built arrays names ctx.rotations rotors stage low)
    (agrees : Banking.Agrees stage.scope.types env) : {e e' : TypedExpr} →
    Typing.CheckedExpr tctx stage.scope.types e → Banking.ReadAs ctx env e e' →
    ∃ l, Located stage.scope stage.ledger rotors e l ∧ Renames low (cellEnv stage.ledger) e' l
  | _, _, .int n, .int _ _ => ⟨_, .int _ n, .int _ n⟩
  | _, _, .bool b, .bool _ _ => ⟨_, .bool _ b, .bool _ b⟩
  | .var ty name, _, .scalar bound, .var _ _ => by
    obtain ⟨d, visible⟩ := Resolution.get?_of_types bound
    obtain ⟨storage, stored, housed⟩ := built.houses.housed name _ d visible
    cases housed with
    | scalar found =>
      exact ⟨_, .var visible stored,
        .var ty found (built.get?_cellEnv stored List.mem_cons_self) (by simp)⟩
  | .var ty name, _, .iterator bound, .var _ _ => by
    obtain ⟨d, visible⟩ := Resolution.get?_of_types bound
    obtain ⟨storage, stored, housed⟩ := built.houses.housed name _ d visible
    cases housed with
    | iterator found =>
      exact ⟨_, .var visible stored,
        .var ty found (built.get?_cellEnv stored List.mem_cons_self) (by simp)⟩
  | _, _, .binop left right _, .binop leftRead rightRead => by
    obtain ⟨lhs, locatedLeft, renamesLeft⟩ := located_read built agrees left leftRead
    obtain ⟨rhs, locatedRight, renamesRight⟩ := located_read built agrees right rightRead
    exact ⟨_, .binop _ _ locatedLeft locatedRight, .binop _ _ renamesLeft renamesRight⟩
  | _, _, .access bound indices, .access found strided placed resolved => by
    obtain rfl := agrees.layout_eq bound found
    obtain ⟨d, resolves⟩ := Resolution.get?_of_types bound
    obtain ⟨e', located, renames, _⟩ := located_resolved built resolves
      (located_place built agrees indices (Layout.length_stridesOf strided) placed) resolved
    exact ⟨e', located, renames⟩

theorem located_place (built : Built arrays names ctx.rotations rotors stage low)
    (agrees : Banking.Agrees stage.scope.types env) : {dims : List Dim} → {idxs : List TypedExpr} →
    Typing.CheckedIndices tctx stage.scope.types dims idxs → {strides : List Nat} →
    strides.length = dims.length → {base : Nat} → {p : Banking.Placement} →
    Banking.PlacedAs ctx env base idxs (dims.zip strides) p →
    LocatedPlacement rotors stage low idxs p
  | _, _, .nil, _, _, _, _, .done _ => ⟨[], [], [], .nil, .nil, .nil, nofun, .nil⟩
  | _, _, .cons checked _ _ rest, stride :: strides, count, _, _,
      .known value _ addressed others _ => by
    obtain ⟨idx', located, renames⟩ := located_read built agrees checked value
    obtain ⟨idxs', addr, terms, locatedRest, overRest, renamesRest, overTerms, renamesTerms⟩ :=
      (located_place built agrees rest (Nat.succ.inj count) others).located
    obtain ⟨offset, spans, renamesOffset⟩ :=
      (Over.staticOffset addressed).renames (.cons renames .nil)
    exact ⟨_, _, terms, .cons located locatedRest, .cons spans overRest,
      .cons renamesOffset renamesRest,
      fun term member => (overTerms term member).mono (List.subset_cons_self _ _), renamesTerms⟩
  | _, _, .cons checked _ _ rest, stride :: strides, count, _, _,
      .varying value _ _ chosen addressed others => by
    obtain ⟨idx', located, renames⟩ := located_read built agrees checked value
    obtain ⟨idxs', addr, terms, locatedRest, overRest, renamesRest, overTerms, renamesTerms⟩ :=
      (located_place built agrees rest (Nat.succ.inj count) others).located
    obtain ⟨offset, spans, renamesOffset⟩ :=
      (Over.maskedOffset addressed).renames (.cons renames .nil)
    obtain ⟨term, overTerm, renamesTerm⟩ := (Over.bankTerm chosen).renames (.cons renames .nil)
    refine ⟨_, _, term :: terms, .cons located locatedRest, .cons spans overRest,
      .cons renamesOffset renamesRest, ?_, .cons renamesTerm renamesTerms⟩
    intro other member
    rcases List.mem_cons.mp member with rfl | later
    · exact overTerm.mono (List.cons_subset_cons _ (List.nil_subset _))
    · exact (overTerms other later).mono (List.subset_cons_self _ _)

end

/-- What an update or a reduction names. -/
theorem located_target (built : Built arrays names ctx.rotations rotors stage low)
    (agrees : Banking.Agrees stage.scope.types env) {target target' : TypedExpr}
    (place : Typing.CheckedTarget tctx stage.scope.types target)
    (written : Banking.WrittenAs ctx env target target') :
    ∃ l, Located stage.scope stage.ledger rotors target l ∧
      RenamesTarget low (cellEnv stage.ledger) target' l := by
  cases place with
  | @register ty name bound =>
    cases written with
    | other _ =>
      obtain ⟨d, visible⟩ := Resolution.get?_of_types bound
      obtain ⟨storage, stored, housed⟩ := built.houses.housed name _ d visible
      cases housed with
      | scalar found =>
        exact ⟨_, .var visible stored,
          .register ty found (built.get?_cellEnv stored List.mem_cons_self)⟩
  | element checked =>
    cases written with
    | element found strided placed resolved =>
      cases checked with
      | access bound indices =>
        obtain rfl := agrees.layout_eq bound found
        obtain ⟨d, resolves⟩ := Resolution.get?_of_types bound
        obtain ⟨l, located, _, renames⟩ := located_resolved built resolves
          (located_place built agrees indices (Layout.length_stridesOf strided) placed) resolved
        exact ⟨l, located, renames rfl⟩
    | other notAccess => exact absurd rfl (notAccess _ _ _)

/-- The memories passed in a call. -/
theorem located_arguments (built : Built arrays names ctx.rotations rotors stage low)
    {args banks : List String} {params : List Decl}
    (given : Banking.BankedArguments stage.scope.types env args params banks) :
    ∃ memories, LocatedArguments stage.scope stage.ledger args memories ∧
      List.Forall₂ (fun bank m => low.get? bank = some (.memory m)) banks memories := by
  induction given with
  | nil => exact ⟨[], .nil, .nil⟩
  | cons declared _ _ named _ ih =>
    obtain ⟨d, resolves⟩ := Resolution.get?_of_types declared
    obtain ⟨storage, stored, housed⟩ := built.houses.housed _ _ d resolves
    cases housed with
    | @array _ _ memories count housed shaped =>
      obtain ⟨rest, located, housedRest⟩ := ih
      refine ⟨memories ++ rest, .cons resolves stored located, ?_⟩
      refine List.rel_append ?_ housedRest
      rw [Layout.banks_eq named, List.forall₂_iff_get]
      refine ⟨by simp [count], ?_⟩
      intro k left right
      have inside : memories[k]? = some memories[k] := List.getElem?_eq_getElem right
      simpa using housed k _ inside

end

end Lowering

end BankedLoops
