import BankedLoops.Proofs.Lowering.Commands

/-!
# Legal components from legal workspaces

What a component is built to be: `Planned` from an empty workspace gives a closed component whose
groups are well wired, and whose widths agree if they are known to.
-/

namespace BankedLoops

namespace Lowering

open Library (Part)

/-! ### Ports -/

theorem lookup_of_mem {entries : List (String × Nat)} (distinct : (entries.map Prod.fst).Nodup)
    {port : String} {width : Nat} (member : (port, width) ∈ entries) :
    entries.lookup port = some width := by
  induction entries with
  | nil => cases member
  | cons entry entries ih =>
    obtain ⟨other, bits⟩ := entry
    obtain ⟨once, distinct⟩ := List.nodup_cons.mp distinct
    rw [List.lookup_cons]
    rcases List.mem_cons.mp member with same | later
    · cases same
      rw [beq_self_eq_true]
    · have different : port ≠ other := by
        rintro rfl
        exact once (List.mem_map.mpr ⟨_, later, rfl⟩)
      rw [beq_false_of_ne different]
      exact ih distinct later

theorem distinct_inputs (part : Part) : (part.inputs.map Prod.fst).Nodup := by
  cases part with
  | memory width sizes widths =>
    rcases widths with _ | ⟨_, _ | ⟨_, _ | ⟨_, _ | ⟨_, _⟩⟩⟩⟩ <;>
      simp [Part.inputs, Part.addressPorts]
  | _ => simp [Part.inputs]

theorem distinct_outputs (part : Part) : (part.outputs.map Prod.fst).Nodup := by
  cases part <;> simp [Part.outputs]

section

variable {exact : Prop} {cells : List Cell} {assigns : List Assignment} {p : Pin} {width : Nat}

theorem Sourced.cell (source : Sourced cells assigns p width) :
    ∃ name port, p = .cell name port ∧ name ∈ cells.map (·.name) := by
  cases source with
  | output found => exact ⟨_, _, rfl, mem_of_partOf? found⟩

theorem Sourced.outputWidth? {c : Component} (source : Sourced c.cells assigns p width) :
    c.outputWidth? p = some width := by
  cases source with
  | @output _ _ part _ found shown =>
    rw [Component.outputWidth?, found, Option.bind_some]
    exact lookup_of_mem (distinct_outputs part) shown

theorem Sourced.supplied {g : Group} (source : Sourced cells g.assignments p width) :
    g.Supplied cells p := by
  cases source with
  | output found shown driven => exact ⟨_, _, _, rfl, found, List.mem_map.mpr ⟨_, shown, rfl⟩, driven⟩

/-! ### Links -/

variable {group : String} {a : Assignment}

/-- Everything that an assignment reads is a source. -/
theorem Link.reads (link : Link exact cells assigns group a) :
    ∀ p ∈ a.reads, ∃ width, Sourced cells assigns p width := by
  intro p member
  rcases link with feeding | clocked
  · cases feeding with
    | wire _ _ _ source =>
      rw [List.mem_singleton.mp member]
      exact ⟨_, source⟩
  · cases clocked with
    | done source =>
      rw [List.mem_singleton.mp member]
      exact ⟨_, source⟩
    | @port _ _ _ src _ _ _ _ _ source _ guards =>
      rcases List.mem_append.mp member with read | guarded
      · cases src with
        | pin q =>
          rw [List.mem_singleton.mp read]
          exact ⟨_, source⟩
        | const => cases read
      · exact ⟨_, guards p guarded⟩

theorem Link.dst (link : Link exact cells assigns group a) :
    a.dst = .done group ∨ ∃ name port, a.dst = .cell name port ∧ name ∈ cells.map (·.name) := by
  rcases link with feeding | clocked
  · cases feeding with
    | wire found => exact .inr ⟨_, _, rfl, mem_of_partOf? found⟩
  · cases clocked with
    | done => exact .inl rfl
    | port found => exact .inr ⟨_, _, rfl, mem_of_partOf? found⟩

/-! ### Order within a cycle -/

/-- How deep a pin lies behind registers and memories. -/
def depth (cells : List Cell) : Pin → Nat
  | .hole .. => 2 * cells.length + 1
  | .cell name port =>
    match partOf? cells name with
    | none => 0
    | some part =>
      if port ∈ part.outputs.map Prod.fst then
        if part.isCombinational ∧ part.inputs ≠ [] then 2 * position cells name + 2 else 0
      else
        if part.isCombinational then 2 * position cells name + 1 else 2 * cells.length + 1

theorem depth_input {name port : String} {part : Part} (found : partOf? cells name = some part)
    (combinational : part.isCombinational = true) (input : port ∈ part.inputs.map Prod.fst) :
    depth cells (.cell name port) = 2 * position cells name + 1 := by
  have sink : port ∉ part.outputs.map Prod.fst := fun output => Part.not_input_of_output output input
  simp only [depth, found, if_neg sink, if_pos combinational]

theorem depth_output {name port : String} {part : Part} (found : partOf? cells name = some part)
    (output : port ∈ part.outputs.map Prod.fst) :
    depth cells (.cell name port) =
      if part.isCombinational ∧ part.inputs ≠ [] then 2 * position cells name + 2 else 0 := by
  simp only [depth, found, if_pos output]

theorem Sourced.depth_le (source : Sourced cells assigns p width) :
    depth cells p ≤ 2 * cells.length := by
  cases source with
  | output found shown =>
    rw [depth_output found (List.mem_map.mpr ⟨_, shown, rfl⟩)]
    have inside := position_lt (mem_of_partOf? found)
    split <;> omega

theorem Clocked.depth_dst (clocked : Clocked exact cells assigns group a) :
    depth cells a.dst = 2 * cells.length + 1 := by
  cases clocked with
  | done => rfl
  | port found timed sink => simp [depth, found, sink, timed]

/-- Values flow to deeper pins. -/
theorem depth_lt {g : Group} (legal : LegalGroup exact cells g) {p q : Pin} (feeds : g.Feeds cells p q) :
    depth cells p < depth cells q := by
  cases feeds with
  | @assigned a _ member read =>
    have link := legal.links a member
    obtain ⟨width, source⟩ := link.reads p read
    rcases link with feeding | clocked
    · cases feeding with
      | wire found combinational input _ earlier =>
        rw [List.mem_singleton.mp read] at source ⊢
        rw [depth_input found combinational (List.mem_map.mpr ⟨_, input, rfl⟩)]
        cases earlier with
        | output port isOther order =>
          cases source with
          | output same shown =>
            rw [isOther] at same
            cases same
            rw [depth_output isOther (List.mem_map.mpr ⟨_, shown, rfl⟩)]
            split
            · next both =>
              have before := (order both.1).resolve_left both.2
              omega
            · omega
    · rw [clocked.depth_dst]
      exact Nat.lt_succ_of_le source.depth_le
  | computed found combinational read driven =>
    rw [depth_input found combinational (List.mem_map.mpr ⟨_, read, rfl⟩),
      depth_output found (List.mem_map.mpr ⟨_, driven, rfl⟩),
      if_pos ⟨combinational, List.ne_nil_of_mem read⟩]
    omega

theorem LegalGroup.acyclic {g : Group} (legal : LegalGroup exact cells g) (p : Pin) :
    ¬ Relation.TransGen (g.Feeds cells) p p := by
  have deeper {q : Pin} (path : Relation.TransGen (g.Feeds cells) p q) :
      depth cells p < depth cells q := by
    induction path with
    | single step => exact depth_lt legal step
    | tail _ step ih => exact Nat.lt_trans ih (depth_lt legal step)
  exact fun cycle => Nat.lt_irrefl _ (deeper cycle)

end

/-! ### Components -/

/-- The groups of one kind are scheduled as often as they are there. -/
theorem count_scheduled {w : Workspace} (distinct : w.groupNames.Nodup) {g : Group}
    (member : g ∈ w.groups) : (w.scheduled g.isStatic).count g.name = 1 := by
  refine List.count_eq_one_of_mem ?_ (List.mem_map.mpr ⟨g, ?_, rfl⟩)
  · exact List.Nodup.sublist (List.filter_sublist.map _) distinct
  · rw [List.mem_filter]
    exact ⟨member, beq_self_eq_true _⟩

theorem mem_scheduled {w : Workspace} {static : Bool} {name : String}
    (member : name ∈ w.scheduled static) : ∃ g ∈ w.groups, g.name = name ∧ g.isStatic = static := by
  obtain ⟨g, inside, named⟩ := List.mem_map.mp member
  obtain ⟨inside, kind⟩ := List.mem_filter.mp inside
  exact ⟨g, inside, named, eq_of_beq kind⟩

section

variable {exact : Prop} {quotes : Statements} {control : Control} {w : Workspace}

theorem Planned.closed (planned : Planned exact { quotes } [control] w) (name : String) :
    (Component.mk name w.cells w.groups control).Closed := by
  have legal := planned.extends_.legal
  have named := planned.legal control List.mem_cons_self
  have distinct : w.groupNames.Nodup := (List.nodup_append.mp legal.distinct).2.1
  have enables (name : String) : (w.scheduled true).count name = control.enables.count name := by
    rw [planned.schedules.enables, List.flatMap_singleton]
    exact Nat.zero_add _
  have conds (name : String) : (w.scheduled false).count name = control.conds.count name := by
    rw [planned.schedules.conds, List.flatMap_singleton]
    exact Nat.zero_add _
  constructor
  · exact legal.distinct
  · intro g member a inside p isNamed name isCell
    have link := (legal.groups g member).links a inside
    rcases List.mem_cons.mp isNamed with rfl | read
    · rcases link.dst with dst | ⟨_, _, dst, present⟩
      · rw [dst] at isCell
        cases isCell
      · rw [dst] at isCell
        cases isCell
        exact present
    · obtain ⟨_, source⟩ := link.reads p read
      obtain ⟨_, _, rfl, present⟩ := source.cell
      cases isCell
      exact present
  · intro entry member name isCell
    obtain ⟨_, source, _⟩ := named.tests entry member
    obtain ⟨_, _, same, present⟩ := source.cell
    rw [same] at isCell
    cases isCell
    exact present
  · exact named.invoked
  · rintro g member a inside p isNamed group hole rfl
    have link := (legal.groups g member).links a inside
    rcases List.mem_cons.mp isNamed with same | read
    · rcases link.dst with dst | ⟨_, _, dst, _⟩
      · exact same.trans dst
      · rw [dst] at same
        cases same
    · obtain ⟨_, source⟩ := link.reads _ read
      obtain ⟨_, _, same, _⟩ := source.cell
      cases same
  · intro g member static
    rw [← enables, ← static]
    exact count_scheduled distinct member
  · intro name member
    refine mem_scheduled (List.count_pos_iff.mp ?_)
    rw [enables]
    exact List.count_pos_iff.mpr member
  · intro g member combinational
    rw [← conds, ← combinational]
    exact count_scheduled distinct member
  · intro name member
    refine mem_scheduled (List.count_pos_iff.mp ?_)
    rw [conds]
    exact List.count_pos_iff.mpr member

theorem Planned.wellWired (planned : Planned exact { quotes } [control] w) (name : String) :
    ∀ g ∈ w.groups, (Component.mk name w.cells w.groups control).WellWired g := by
  intro g member
  have legal := planned.extends_.legal
  have wired := legal.groups g member
  refine ⟨wired.single, ?_, ?_, wired.acyclic⟩
  · intro a inside p read
    obtain ⟨_, source⟩ := (wired.links a inside).reads p read
    exact source.supplied
  · intro p tested
    obtain ⟨_, source, other, inside, named, rfl⟩ :=
      (planned.legal control List.mem_cons_self).tests _ tested
    have distinct : w.groupNames.Nodup := (List.nodup_append.mp legal.distinct).2.1
    obtain rfl := List.inj_on_of_nodup_map distinct inside member named
    exact source.supplied

theorem Planned.widthsAgree (planned : Planned True { quotes } [control] w) (name : String) :
    (Component.mk name w.cells w.groups control).WidthsAgree := by
  have legal := planned.extends_.legal
  have inputWidth (cell port : String) (part : Part) (width : Nat)
      (found : partOf? w.cells cell = some part) (input : (port, width) ∈ part.inputs) :
      (Component.mk name w.cells w.groups control).inputWidth? (.cell cell port) = some width := by
    rw [Component.inputWidth?, found, Option.bind_some]
    exact lookup_of_mem (distinct_inputs part) input
  constructor
  · intro g member a inside
    rcases (legal.groups g member).links a inside with feeding | clocked
    · cases feeding with
      | wire found _ input source => exact ⟨_, inputWidth _ _ _ _ found input, source.outputWidth?⟩
    · cases clocked with
      | done source => exact ⟨1, rfl, source.outputWidth?⟩
      | @port _ _ _ src _ width found _ _ source fits =>
        refine ⟨width, inputWidth _ _ _ _ found (fits trivial), ?_⟩
        cases src with
        | pin p => exact Sourced.outputWidth? source
        | const bits value =>
          rw [Component.sourceWidth?, if_pos source.2, source.1]
  · intro g member a inside p guarded
    rcases (legal.groups g member).links a inside with feeding | clocked
    · cases feeding
      cases guarded
    · cases clocked with
      | done => cases guarded
      | port _ _ _ _ _ guards => exact (guards p guarded).outputWidth?
  · intro entry member
    obtain ⟨_, source, _⟩ := (planned.legal control List.mem_cons_self).tests entry member
    exact source.outputWidth?
  · exact legal.constants trivial

end

end Lowering

end BankedLoops
