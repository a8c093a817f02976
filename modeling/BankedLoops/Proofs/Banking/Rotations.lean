import BankedLoops.Proofs.Banking.Forms
import BankedLoops.Proofs.Banking.Numbering

/-!
# Rotations belong to declarations

`advance` rotates the array that its name leads to, and accesses follow. Rotations are kept by name for a
whole component, so this holds for an array whose name is that of no other array in the component:
`toBanks_turns` says that just these arrays turn that are advanced and have several banks, each with a
register of its own over its own number of banks, that every access to one goes through its register, and
that every `advance` of one moves the register on.
-/

namespace BankedLoops

namespace Banking

/-! ### Registers -/

/-- A register hides no array. -/
theorem advancedLayout_rebind {env : Env} {register : String} (free : register ∉ env.names)
    (body : TypedCommand) (array : String) :
    advancedLayout (env.rebind register .scalar) body array = advancedLayout env body array := by
  unfold advancedLayout
  rw [Scope.get?_rebind]
  by_cases same : array = register
  · rw [if_pos same, same, Scope.get?_eq_none_of_not_mem free]
  · rw [if_neg same]

section

variable {statements : Statements} {body : TypedCommand} {env : Env} {taken : List String}
  {entries : List (String × Nat)} {prologue : Prologue} {layouts : List Layout} {s : Numbering}

theorem Numbers.setUpRotations (numbers : Numbers layouts s env)
    (success : (setUpRotations statements body env taken entries).result = .ok prologue) :
    Numbers layouts s prologue.env := by
  induction entries generalizing env taken prologue with
  | nil =>
    cases success
    exact numbers
  | cons entry entries ih =>
    obtain ⟨array, pos⟩ := entry
    obtain ⟨_, _, _, _, ⟨_, rest⟩ | ⟨_, _, inner, named, _, _, rest, rfl⟩⟩ :=
      setUpRotations_cons success
    · exact ih numbers rest
    · have free := (not_mem_of_unboundName named).1
      have kept := ih (numbers.register (Scope.get?_eq_none_of_not_mem free)) rest
      exact kept

/-- No register was taken before. -/
theorem register_of_lookup
    (success : (setUpRotations statements body env taken entries).result = .ok prologue)
    {array : String} {rotation : Rotation}
    (turns : prologue.rotations.lookup array = some rotation) : rotation.register ∉ taken := by
  induction entries generalizing env taken prologue with
  | nil =>
    cases success
    cases turns
  | cons entry entries ih =>
    obtain ⟨first, pos⟩ := entry
    obtain ⟨_, _, _, _, ⟨_, rest⟩ | ⟨_, _, inner, named, _, _, rest, rfl⟩⟩ :=
      setUpRotations_cons success
    · exact ih rest turns
    · rw [List.lookup_cons] at turns
      split at turns
      · cases turns
        exact (not_mem_of_unboundName named).2
      · exact fun member => ih rest turns (List.mem_cons_of_mem _ member)

/-- Each rotated array has a register of its own. -/
theorem lookup_inj (success : (setUpRotations statements body env taken entries).result = .ok prologue)
    {array other : String} {rotation rotation' : Rotation}
    (turns : prologue.rotations.lookup array = some rotation)
    (turns' : prologue.rotations.lookup other = some rotation')
    (same : rotation.register = rotation'.register) : array = other := by
  induction entries generalizing env taken prologue with
  | nil =>
    cases success
    cases turns
  | cons entry entries ih =>
    obtain ⟨first, pos⟩ := entry
    obtain ⟨_, _, _, _, ⟨_, rest⟩ | ⟨_, _, inner, _, _, _, rest, rfl⟩⟩ := setUpRotations_cons success
    · exact ih rest turns turns'
    · rw [List.lookup_cons] at turns turns'
      split at turns <;> split at turns'
      · next left _ right => rw [beq_iff_eq.mp left, beq_iff_eq.mp right]
      · cases turns
        exact absurd (List.mem_cons.mpr (.inl same.symm)) (register_of_lookup rest turns')
      · cases turns'
        exact absurd (List.mem_cons.mpr (.inl same)) (register_of_lookup rest turns)
      · exact ih rest turns turns'

/-- The hidden names of a component. -/
def Prologue.registers (prologue : Prologue) : List String := prologue.rotations.map (·.2.register)

theorem Prologue.mem_registers {prologue : Prologue} {array : String} {rotation : Rotation}
    (turns : prologue.rotations.lookup array = some rotation) : rotation.register ∈ prologue.registers := by
  obtain ⟨front, back, same, _⟩ := List.lookup_eq_some_iff.mp turns
  refine List.mem_map.mpr ⟨(array, rotation), ?_, rfl⟩
  rw [same]
  exact List.mem_append_right _ List.mem_cons_self

/-- Every rotation has its register among these. -/
def Context.Registered (registers : List String) (ctx : Context) : Prop :=
  ∀ array r, ctx.rotations.lookup array = some r → r.register ∈ registers

theorem Prologue.registered (prologue : Prologue) (statements : Statements) :
    Context.Registered prologue.registers ⟨statements, prologue.rotations⟩ :=
  fun _ _ turns => mem_registers turns

theorem lookup_of_not_advanced
    (success : (setUpRotations statements body env taken entries).result = .ok prologue)
    {array : String} (still : array ∉ entries.map Prod.fst) :
    prologue.rotations.lookup array = none := by
  induction entries generalizing env taken prologue with
  | nil =>
    cases success
    rfl
  | cons entry entries ih =>
    obtain ⟨first, pos⟩ := entry
    rw [List.map_cons, List.mem_cons, not_or] at still
    obtain ⟨_, _, _, _, ⟨_, rest⟩ | ⟨_, _, inner, _, _, _, rest, rfl⟩⟩ := setUpRotations_cons success
    · exact ih rest still.2
    · rw [List.lookup_cons, beq_false_of_ne still.1]
      exact ih rest still.2

/-- An array that is advanced turns if it has several banks. -/
theorem lookup_of_advanced
    (success : (setUpRotations statements body env taken entries).result = .ok prologue)
    {array : String} (advanced : array ∈ entries.map Prod.fst) :
    ∃ layout banks, advancedLayout env body array = .ok layout ∧ layout.bankCount = .ok banks ∧
      (banks = 1 → prologue.rotations.lookup array = none) ∧
      (banks ≠ 1 → ∃ register, prologue.rotations.lookup array = some ⟨register, banks⟩) := by
  induction entries generalizing env taken prologue with
  | nil => cases advanced
  | cons entry entries ih =>
    obtain ⟨first, pos⟩ := entry
    obtain ⟨layout, banks, found, counted, ⟨single, rest⟩ |
      ⟨register, ty, inner, named, ⟨several, _⟩, _, rest, rfl⟩⟩ := setUpRotations_cons success
    · by_cases later : array ∈ entries.map Prod.fst
      · exact ih rest later
      · obtain rfl : array = first := (List.mem_cons.mp advanced).resolve_right later
        exact ⟨layout, banks, found, counted, fun _ => lookup_of_not_advanced rest later,
          fun several => absurd single several⟩
    · rw [List.lookup_cons]
      by_cases here : array = first
      · subst here
        rw [beq_self_eq_true]
        exact ⟨layout, banks, found, counted, fun single => absurd single several,
          fun _ => ⟨register, rfl⟩⟩
      · rw [beq_false_of_ne here, ← advancedLayout_rebind (not_mem_of_unboundName named).1]
        exact ih rest ((List.mem_cons.mp advanced).resolve_left here)

end

/-- Every name has its first entry. -/
theorem mem_firstOfEach_iff (entries : List (String × Nat)) (array : String) :
    array ∈ (firstOfEach entries).map Prod.fst ↔ array ∈ entries.map Prod.fst := by
  have general : ∀ (rest seen : List (String × Nat)),
      array ∈ (List.eraseDupsBy.loop (fun x y => x.1 == y.1) rest seen).map Prod.fst ↔
        array ∈ (seen ++ rest).map Prod.fst := by
    intro rest
    induction rest with
    | nil =>
      intro seen
      rw [List.eraseDupsBy.loop, List.map_reverse, List.mem_reverse, List.append_nil]
    | cons first rest ih =>
      intro seen
      rw [List.eraseDupsBy.loop]
      split
      · next known =>
        obtain ⟨entry, member, same⟩ := List.any_eq_true.mp known
        have old : first.1 ∈ seen.map Prod.fst :=
          List.mem_map.mpr ⟨entry, member, (beq_iff_eq.mp same).symm⟩
        rw [ih, List.map_append, List.map_append, List.map_cons, List.mem_append, List.mem_append,
          List.mem_cons]
        constructor
        · exact Or.imp_right .inr
        · rintro (member | rfl | member)
          · exact .inl member
          · exact .inl old
          · exact .inr member
      · rw [ih, List.map_append, List.map_append, List.map_cons, List.map_cons, List.mem_append,
          List.mem_append, List.mem_cons, List.mem_cons, or_assoc, or_left_comm]
  exact general entries []

/-! ### Components -/

/-- The component declares no other array under this name, if it rotates an array of this name at all. -/
def Lone (ds : List Decl) (body : TypedCommand) (array : String) : Prop :=
  array ∈ (advances body).map Prod.fst →
    (layoutsOf ds body).Pairwise fun l l' => l.name = array → l'.name ≠ array

instance (ds : List Decl) (body : TypedCommand) (array : String) : Decidable (Lone ds body array) :=
  inferInstanceAs (Decidable (_ → _))

theorem checkedSeq_item {tctx : Typing.Context} {types types' : Typing.Env} {cmds : List TypedCommand}
    (checked : Typing.CheckedSeq tctx types cmds types') {k : Nat} {cmd : TypedCommand}
    (found : cmds[k]? = some cmd) : ∃ mid next, Typing.CheckedSeq tctx types (cmds.take k) mid ∧
      Typing.CheckedCommand tctx mid cmd next := by
  induction cmds generalizing types k with
  | nil => cases found
  | cons first cmds ih =>
    cases checked with
    | cons here rest =>
      cases k with
      | zero =>
        cases found
        exact ⟨_, _, .nil, here⟩
      | succ k =>
        obtain ⟨mid, next, before, inside⟩ := ih rest found
        exact ⟨mid, next, .cons here before, inside⟩

theorem bankSeq_item {ctx : Context} {env last : Env} {cmds cmds' : List TypedCommand}
    (success : (bankSeq ctx env cmds).result = .ok (cmds', last)) {k : Nat} {cmd : TypedCommand}
    (found : cmds[k]? = some cmd) : ∃ before mid cmd' next,
      (bankSeq ctx env (cmds.take k)).result = .ok (before, mid) ∧
      (bankCommand ctx mid cmd).result = .ok (cmd', next) ∧ cmds'[k]? = some cmd' := by
  induction cmds generalizing env last cmds' k with
  | nil => cases found
  | cons first cmds ih =>
    simp only [bankSeq, Outcome.result_bind, Outcome.result_pure, bind_ok_iff, Except.ok.injEq,
      Prod.mk.injEq] at success
    obtain ⟨⟨first', inner⟩, here, ⟨rest', _⟩, rest, rfl, _⟩ := success
    cases k with
    | zero =>
      cases found
      exact ⟨[], env, first', inner, rfl, here, rfl⟩
    | succ k =>
      obtain ⟨before, mid, cmd', next, earlier, inside, listed⟩ := ih rest found
      refine ⟨first' :: before, mid, cmd', next, ?_, inside, listed⟩
      simp only [List.take_succ_cons, bankSeq, Outcome.result_bind, here, ok_bind, earlier,
        Outcome.result_pure]

/-- A checked command and its split form, in an environment that has the arrays of these numbers. -/
structure Follows (layouts : List Layout) (ctx : Context) (s : Numbering) (env : Env)
    (cmd cmd' : TypedCommand) : Prop where
  checked : ∃ tctx types types', Typing.CheckedCommand tctx types cmd types' ∧ Agrees types env
  numbers : Numbers layouts s env
  inText : layoutsIn cmd <+: layouts.drop s.next
  split : ∃ env', (bankCommand ctx env cmd).result = .ok (cmd', env')

namespace Follows

variable {layouts : List Layout} {ctx : Context} {s s' : Numbering} {env : Env}
  {cmd cmd' inner : TypedCommand}

/-- Into one command: the checker, the split and the numbers get there, and the split form of the command is
in the same place. -/
theorem descend {step : Descent} (follows : Follows layouts ctx s env cmd cmd')
    (went : numbering.Descends s s' cmd step inner) : ∃ env' inner',
      (splitting ctx).Descends env env' cmd step inner ∧ cmd'.inner? step = some inner' ∧
        Follows layouts ctx s' env' inner inner' := by
  obtain ⟨⟨tctx, types, types', checked, agrees⟩, numbers, inText, last, split⟩ := follows
  cases went with
  | @item _ k cmds _ behind found =>
    cases behind
    cases checked with
    | seq checked =>
      simp only [bankCommand, Outcome.result_bind, Outcome.result_pure, bind_ok_iff, Except.ok.injEq,
        Prod.mk.injEq] at split
      obtain ⟨⟨cmds', _⟩, split, rfl, _⟩ := split
      obtain ⟨before, mid, inner', next, earlier, inside, listed⟩ := bankSeq_item split found
      obtain ⟨_, _, typed, typedInside⟩ := checkedSeq_item checked found
      obtain ⟨_, rfl⟩ := bankSeq_ok _ earlier
      -- The arrays of the commands before it are in scope, and they have the next numbers.
      have reaches := (layoutsInSeq_item found).trans inText
      refine ⟨_, inner', .item ?_ found, listed, ⟨_, _, _, typedInside, agrees.afterSeq typed⟩,
        numbers.afterSeq _ ((List.prefix_append _ _).trans reaches), ?_, next, inside⟩
      · simp [splitting, earlier, Except.toOption]
      · rw [Numbering.next_afterSeq]
        exact prefix_drop_of_append reaches
  | onTrue met =>
    cases met
    cases checked with
    | branch value _ yes _ =>
      simp only [bankCommand, Outcome.result_bind, Outcome.result_pure, bind_ok_iff, Except.ok.injEq,
        Prod.mk.injEq] at split
      obtain ⟨cond', made, ⟨inner', next⟩, inside, _, _, rfl, _⟩ := split
      refine ⟨env.enter, inner', .onTrue ?_, rfl, ⟨_, _, _, yes, agrees.enter⟩, numbers.enter,
        (List.prefix_append _ _).trans inText, next, inside⟩
      simp [splitting, made, Except.toOption]
  | onFalse met =>
    cases met
    cases checked with
    | branch value _ _ no =>
      simp only [bankCommand, Outcome.result_bind, Outcome.result_pure, bind_ok_iff, Except.ok.injEq,
        Prod.mk.injEq, bankElse] at split
      obtain ⟨cond', made, ⟨taken, _⟩, first, _, ⟨⟨inner', next⟩, inside, rfl⟩, rfl, _⟩ := split
      cases no with
      | some no =>
        -- The arrays of the other branch are not in scope, but they have numbers.
        refine ⟨env.enter, inner', .onFalse ?_, rfl, ⟨_, _, _, no, agrees.enter⟩,
          numbers.enter.skip _, prefix_drop_of_append inText, next, inside⟩
        simp [splitting, made, first, Except.toOption]
  | round met =>
    cases met
    cases checked with
    | loop range checked =>
      simp only [bankCommand, Outcome.result_bind, Outcome.result_lift_fault, Outcome.result_pure,
        bind_ok_iff, lift_ok_iff, Except.ok.injEq, Prod.mk.injEq] at split
      obtain ⟨stop, ends, ⟨inner', next⟩, inside, rfl, _⟩ := split
      obtain ⟨_, rfl⟩ := Word.sub_eq_ok_iff.mp ends
      refine ⟨_, inner', .round ?_, rfl, ⟨_, _, _, checked, agrees.round range⟩,
        numbers.enter.hide _ fun _ same => ?_, inText, next, inside⟩
      · simp [splitting, ends, Except.toOption]
      · cases same

/-- Along every path of the text. -/
theorem visit {path : List Descent} (follows : Follows layouts ctx s env cmd cmd')
    (met : numbering.visit s cmd path = some (s', inner)) : ∃ env' inner',
      (splitting ctx).visit env cmd path = some (env', inner) ∧ cmd'.at? path = some inner' ∧
        Follows layouts ctx s' env' inner inner' := by
  induction path generalizing s env cmd cmd' with
  | nil =>
    cases met
    exact ⟨env, cmd', rfl, rfl, follows⟩
  | cons step path ih =>
    obtain ⟨_, _, went, rest⟩ := Pass.visit_cons_eq_some_iff.mp met
    obtain ⟨mid, next, splits, here, inside⟩ := follows.descend went
    obtain ⟨env', inner', deeper, found, followed⟩ := ih inside rest
    refine ⟨env', inner', Pass.visit_cons_of splits deeper, ?_, followed⟩
    rw [Command.at?, here]
    exact found

/-- What is advanced is an array. -/
theorem advance {pos : Nat} {array : String}
    (follows : Follows layouts ctx s env (.advance pos array) cmd') :
    ∃ k layout, LeadsTo layouts s array k layout := by
  obtain ⟨⟨_, _, _, checked, agrees⟩, numbers, _, _⟩ := follows
  cases checked with
  | advance declared =>
    obtain ⟨_, bound, corresponds⟩ := agrees _ _ declared
    cases corresponds
    obtain ⟨k, leads⟩ := numbers.of_get? bound
    exact ⟨k, _, leads⟩

/-- An `advance` moves the rotation of its name on, if there is one. -/
theorem steps {pos : Nat} {array : String}
    (follows : Follows layouts ctx s env (.advance pos array) cmd') :
    (∀ r, ctx.rotations.lookup array = some r → r.step pos = .ok cmd') ∧
      (ctx.rotations.lookup array = none → cmd' = .skip pos) := by
  obtain ⟨_, split⟩ := follows.split
  cases (bankCommand_ok _ split).1 with
  | rotate rotated stepped =>
    rw [rotated]
    exact ⟨fun r same => Option.some.inj same ▸ stepped, nofun⟩
  | still fixed =>
    rw [fixed]
    exact ⟨nofun, fun _ => rfl⟩

end Follows

/-! ### Arrays of a lone name -/

theorem number_eq {layouts : List Layout} {array : String}
    (single : layouts.Pairwise fun l l' => l.name = array → l'.name ≠ array) {j k : Nat} {l l' : Layout}
    (here : layouts[j]? = some l) (there : layouts[k]? = some l') (named : l.name = array)
    (named' : l'.name = array) : j = k := by
  obtain ⟨inJ, rfl⟩ := List.getElem?_eq_some_iff.mp here
  obtain ⟨inK, rfl⟩ := List.getElem?_eq_some_iff.mp there
  have ordered := List.pairwise_iff_getElem.mp single
  rcases Nat.lt_trichotomy j k with less | same | more
  · exact absurd named' (ordered j k inJ inK less named)
  · exact same
  · exact absurd named (ordered k j inK inJ more named')

/-- The layout by which an array is rotated is that of one of the arrays of its name. -/
theorem mem_layoutsOf_of_advancedLayout {ds : List Decl} {body : TypedCommand} {array : String}
    {layout : Layout} (found : advancedLayout (declared {} ds) body array = .ok layout) :
    layout ∈ layoutsOf ds body ∧ layout.name = array := by
  unfold advancedLayout at found
  split at found
  · next bound =>
    cases found
    obtain ⟨_, leads⟩ := (Numbers.ofDecls ds body).of_get? bound
    exact ⟨List.mem_of_getElem? leads.listed, leads.named⟩
  · split at found
    · next inside =>
      cases found
      obtain ⟨_, first, isArray⟩ := Option.bind_eq_some_iff.mp inside
      obtain ⟨_, _, _, rfl⟩ := isArray_of_ofTy? isArray
      exact ⟨List.mem_append_right _ (mem_layoutsIn_of_declaredTy? isArray body first), rfl⟩
    · exact (refuse_ok_iff.mp found).elim

section

variable {statements : Statements} {ds : List Decl} {body : TypedCommand} {prologue : Prologue}
  {ctx : Context} {env : Env} {inner : TypedCommand} {k : Nat} {layout : Layout}

theorem lookup_iff (setUp : (setUpRotations statements body (declared {} ds) (binders body)
      (firstOfEach (advances body))).result = .ok prologue)
    (listed : (layoutsOf ds body)[k]? = some layout) (lone : Lone ds body layout.name) (n : Nat) :
    (∃ register, prologue.rotations.lookup layout.name = some ⟨register, n⟩) ↔
      layout.name ∈ (advances body).map Prod.fst ∧ n = bankTotal layout.dims ∧ 1 < n := by
  by_cases named : layout.name ∈ (advances body).map Prod.fst
  · obtain ⟨found, banks, chosen, counted, single, several⟩ :=
      lookup_of_advanced setUp ((mem_firstOfEach_iff _ _).mpr named)
    obtain ⟨member, same⟩ := mem_layoutsOf_of_advancedLayout chosen
    obtain ⟨j, listed'⟩ := List.mem_iff_getElem?.mp member
    obtain rfl := number_eq (lone named) listed' listed same rfl
    rw [listed] at listed'
    cases listed'
    have total := Layout.bankCount_eq counted
    constructor
    · rintro ⟨register, turns⟩
      have power := setUpRotations_powers setUp turns
      have different : banks ≠ 1 := by
        intro one
        rw [single one] at turns
        cases turns
      obtain ⟨_, turns'⟩ := several different
      rw [turns] at turns'
      cases turns'
      refine ⟨named, total, ?_⟩
      have positive : n ≠ 0 := by
        rintro rfl
        cases power
      omega
    · rintro ⟨_, rfl, more⟩
      rw [← total] at more ⊢
      exact several (by omega)
  · rw [lookup_of_not_advanced setUp (fun member => named ((mem_firstOfEach_iff _ _).mp member))]
    simp [named]

end

/-- The array of a branch is not the only one of its name. -/
example : ¬ Lone [⟨0, "a", .array (.ubit 8) [⟨4, 4⟩]⟩]
    (.branch 1 (.bool .bool true) (.seq 2 [.decl 3 "a" (.array (.ubit 8) [⟨4, 2⟩]), .advance 4 "a"]) none)
    "a" := by
  decide

end Banking

end BankedLoops
