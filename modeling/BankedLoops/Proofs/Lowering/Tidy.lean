import BankedLoops.Proofs.Lowering.Commands
import BankedLoops.Proofs.Lowering.Resolution
import BankedLoops.Proofs.Typing.Written

/-!
# Split programs are tidy

Whatever the names of a program, the memories of one array are different, so a read from all of them
names none twice; and an array with dimensions is split into memories with dimensions.
-/

namespace BankedLoops

namespace Lowering

/-! ### Expressions -/

theorem tidy_inherited : Inherited Tidy :=
  ⟨fun _ => trivial, fun _ _ _ _ left right => ⟨left, right⟩⟩

/-- A resolved access names the memories of one array. -/
theorem tidy_resolved {ctx : Banking.Context} {array : String} {layout : Layout} {ty : Ty}
    {writes : Bool} {p : Banking.Placement} {e : TypedExpr} (addr : TidyAll p.addr) (terms : ∀ t ∈ p.terms, Tidy t)
    (resolved : Banking.ResolvedAs ctx array layout ty writes p e) : Tidy e := by
  cases resolved with
  | direct => exact addr
  | multiplexed named _ _ summed selected =>
    have flat := tidy_inherited.selector terms summed
    exact ⟨Layout.nodup_banks named, tidy_inherited.rotated flat (fun _ _ => trivial) selected, addr⟩

section

variable {ctx : Banking.Context} {env : Banking.Env}

mutual

theorem tidy_read : {e e' : TypedExpr} → e.Written → Banking.ReadAs ctx env e e' → Tidy e'
  | _, _, _, .int .. => trivial
  | _, _, _, .bool .. => trivial
  | _, _, _, .var .. => trivial
  | _, _, written, .binop left right => ⟨tidy_read written.1 left, tidy_read written.2 right⟩
  | _, _, written, .access _ _ placed resolved =>
    tidy_resolved (tidy_place written placed).1 (tidy_place written placed).2 resolved
  | _, _, _, .app _ => trivial
  | _, _, written, .mem .. => written.elim
  | _, _, written, .muxRead .. => written.elim

theorem tidy_place : {base : Nat} → {idxs : List TypedExpr} → {dims : List (Dim × Nat)} →
    {p : Banking.Placement} → TypedExpr.WrittenAll idxs → Banking.PlacedAs ctx env base idxs dims p →
    TidyAll p.addr ∧ ∀ t ∈ p.terms, Tidy t
  | _, _, _, _, _, .done _ => ⟨trivial, nofun⟩
  | _, _, _, _, written, .known value _ addressed others _ => by
    obtain ⟨addr, terms⟩ := tidy_place written.2 others
    have index := tidy_read written.1 value
    exact ⟨⟨tidy_inherited.staticOffset index addressed, addr⟩, terms⟩
  | _, _, _, _, written, .varying value _ _ chosen addressed others => by
    obtain ⟨addr, terms⟩ := tidy_place written.2 others
    have index := tidy_read written.1 value
    exact ⟨⟨tidy_inherited.maskedOffset index addressed, addr⟩,
      List.forall_mem_cons.mpr ⟨tidy_inherited.bankTerm index chosen, terms⟩⟩

end

/-- An expression over arrays reads from no memories yet. -/
theorem tidy_of_written : (e : TypedExpr) → e.Written → Tidy e
  | .binop _ _ lhs rhs, written => ⟨tidy_of_written lhs written.1, tidy_of_written rhs written.2⟩
  | .int .., _ | .bool .., _ | .var .., _ | .access .., _ | .app .., _ => trivial
  | .mem .., written | .muxRead .., written => written.elim

theorem tidy_write {e e' : TypedExpr} (written : e.Written) (target : Banking.WrittenAs ctx env e e') :
    Tidy e' := by
  cases target with
  | element _ _ placed resolved =>
    obtain ⟨addr, terms⟩ := tidy_place written placed
    exact tidy_resolved addr terms resolved
  | other => exact tidy_of_written e written

end

/-! ### Commands -/

theorem tidyTy_of_written {ty : Ty} (written : ty.Written) : TidyTy ty := by
  rintro elem dims rfl
  exact written.1

theorem tidy_bankTy {l : Layout} {name : String} {ty : Ty} (found : Layout.ofTy? name ty = some l)
    (written : ty.Written) : TidyTy l.bankTy := by
  cases ty <;> cases found
  rintro elem dims same
  cases same
  simpa using written.1

theorem tidy_declBanks {l : Layout} {pos : Nat} {cmd : TypedCommand} (tidy : TidyTy l.bankTy)
    (split : Banking.declBanks l pos = .ok cmd) : TidyCommand cmd := by
  have all (ds : List Decl) (same : ∀ d ∈ ds, d.ty = l.bankTy) :
      TidySeq (ds.map fun d => .decl pos d.name d.ty) := by
    induction ds with
    | nil => trivial
    | cons d ds ih =>
      obtain ⟨first, others⟩ := List.forall_mem_cons.mp same
      have tidyFirst : TidyTy d.ty := first ▸ tidy
      exact ⟨tidyFirst, ih others⟩
  obtain ⟨ds, named, form⟩ := Banking.declBanks_split split
  have same : ∀ d ∈ ds, d.ty = l.bankTy := by
    rw [Layout.split_eq named]
    intro d member
    obtain ⟨k, _, rfl⟩ := List.mem_map.mp member
    rfl
  obtain ⟨d, rfl, rfl⟩ | ⟨_, rfl⟩ := form
  · exact (all [d] same).1
  · exact all ds same

theorem tidy_step {r : Banking.Rotation} {pos : Nat} {cmd : TypedCommand}
    (stepped : r.step pos = .ok cmd) : TidyCommand cmd := by
  obtain ⟨ty, _, sum, added, next, wrapped, rfl⟩ := Banking.Rotation.step_update stepped
  have register : Tidy (.var ty r.register) := trivial
  have turned := tidy_inherited.widened register (tidy_inherited.literal 1) added
  exact ⟨trivial, tidy_inherited.wrap turned wrapped⟩

section

variable {ctx : Banking.Context}

mutual

theorem tidy_command : {env : Banking.Env} → {cmd cmd' : TypedCommand} → Typing.WrittenCommand cmd →
    Banking.BankedCommand ctx env cmd cmd' → TidyCommand cmd'
  | _, _, _, written, .array found split => tidy_declBanks (tidy_bankTy found written) split
  | _, _, _, written, .scalar _ => tidyTy_of_written written
  | _, _, _, written, .define value => tidy_read written value
  | _, _, _, written, .seq all => tidy_seq written all
  | _, _, _, written, .branch value yes no =>
    ⟨tidy_read written.1 value, tidy_command written.2.1 yes, tidy_else written.2.2 no⟩
  | _, _, _, written, .loop _ round => (tidy_command written.2.2 round :)
  | _, _, _, written, .update place read => ⟨tidy_write written.1 place, tidy_read written.2 read⟩
  | _, _, _, written, .reduce place read => ⟨tidy_write written.2.1 place, tidy_read written.2.2 read⟩
  | _, _, _, written, .eval value => tidy_read written value
  | _, _, _, _, .rotate _ stepped => tidy_step stepped
  | _, _, _, _, .still _ => trivial
  | _, _, _, _, .skip => trivial

theorem tidy_seq : {env : Banking.Env} → {cmds cmds' : List TypedCommand} →
    Command.WrittenSeq TypedExpr.Written cmds → Banking.BankedSeq ctx env cmds cmds' → TidySeq cmds'
  | _, _, _, _, .nil => trivial
  | _, _, _, written, .cons first rest => ⟨tidy_command written.1 first, tidy_seq written.2 rest⟩

theorem tidy_else : {env : Banking.Env} → {cmd cmd' : Option TypedCommand} →
    Command.WrittenElse TypedExpr.Written cmd → Banking.BankedElse ctx env cmd cmd' → TidyElse cmd'
  | _, _, _, _, .none => trivial
  | _, _, _, written, .some banked => tidy_command written banked

end

end

/-! ### Components -/

theorem tidySeq_append {cmds others : List TypedCommand} (first : TidySeq cmds)
    (second : TidySeq others) : TidySeq (cmds ++ others) := by
  induction cmds with
  | nil => exact second
  | cons cmd cmds ih => exact ⟨first.1, ih first.2⟩

theorem tidy_setUp {statements : Statements} {body : TypedCommand} {env : Banking.Env}
    {taken : List String} {arrays : List (String × Nat)} {prologue : Banking.Prologue}
    (success : (Banking.setUpRotations statements body env taken arrays).result = .ok prologue) :
    TidySeq prologue.setup := by
  induction arrays generalizing env taken prologue with
  | nil =>
    cases success
    trivial
  | cons entry arrays ih =>
    obtain ⟨layout, banks, _, _, ⟨_, rest⟩ | ⟨register, ty, inner, _, _, _, rest, rfl⟩⟩ :=
      Banking.setUpRotations_cons success
    · exact ih rest
    · exact ⟨trivial, ih rest⟩

theorem tidy_bankBody {statements : Statements} {env : Banking.Env} {body banked : TypedCommand}
    (written : Typing.WrittenCommand body)
    (split : (Banking.bankBody statements env body).result = .ok banked) : TidyCommand banked := by
  obtain ⟨prologue, inner, setUp, banked, rfl⟩ := Banking.bankBody_ok split
  have tidy := tidy_command written banked
  split
  · exact tidy
  · exact tidySeq_append (tidy_setUp setUp) ⟨tidy, trivial⟩

theorem tidy_bankDecls {env env' : Banking.Env} {ds banked : List Decl}
    (written : ∀ d ∈ ds, d.ty.Written) (split : Banking.bankDecls env ds = .ok (banked, env')) :
    ∀ d ∈ banked, TidyTy d.ty := by
  replace split := Banking.bankDecls_ok split
  induction split with
  | nil => exact nofun
  | @array _ _ _ name elem dims _ _ _ split _ ih =>
    obtain ⟨first, others⟩ := List.forall_mem_cons.mp written
    have found : Layout.ofTy? name (.array elem dims) = some ⟨name, elem, dims⟩ := rfl
    rw [Layout.split_eq split, List.forall_mem_append, List.forall_mem_map]
    exact ⟨fun _ _ => tidy_bankTy found first, ih others⟩
  | scalar _ _ ih =>
    obtain ⟨first, others⟩ := List.forall_mem_cons.mp written
    exact List.forall_mem_cons.mpr ⟨tidyTy_of_written first, ih others⟩

theorem tidy_bankedBody {statements : Statements} {env : Banking.Env}
    {body banked : Option TypedCommand} (written : Command.WrittenElse TypedExpr.Written body)
    (split : BankedBody statements env body banked) : TidyElse banked := by
  cases split with
  | none => trivial
  | some split => exact tidy_bankBody written split

end Lowering

end BankedLoops
