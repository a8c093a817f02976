import BankedLoops.Banking.Program
import BankedLoops.Proofs.Preorder
import BankedLoops.Proofs.Success

/-!
# The rules of splitting into banks

The rules by which expressions and commands become expressions and commands over banks, one for each
kind, with the environment that each part is split in. `read_ok`, `write_ok` and `bankCommand_ok`
say that a success follows the rules.
-/

namespace BankedLoops

namespace Banking

/-! ### Index arithmetic -/

section

variable {idx lhs rhs e : TypedExpr}

/-- The width of a widened operation: a sum and a product have room for their results, any other
operation is as wide as its left operand. -/
def widenedWidth : BinOp → Nat → Nat → Nat
  | .add, l, r => max l r + 1
  | .mul, l, r => l + r
  | _, l, _ => l

theorem eq_of_widened {op : BinOp} (made : widened op lhs rhs = .ok e) :
    e = .binop (.ubit (widenedWidth op lhs.ty.width rhs.ty.width)) op lhs rhs := by
  cases op with
  | add | mul =>
    simp only [widened, bind_ok_iff, Word.add_eq_ok_iff, pure_ok_iff] at made
    obtain ⟨_, ⟨_, rfl⟩, rfl⟩ := made
    rfl
  | _ =>
    cases made
    rfl

theorem staticOffset_cases {start : Nat} (made : staticOffset idx start = .ok e) :
    (∃ ty n, idx = .int ty n ∧ start ≤ n ∧ e = .lit (n - start)) ∨ start = 0 ∧ e = idx ∨
      e = .binop (.ubit idx.ty.width) .sub idx (.lit start) := by
  unfold staticOffset at made
  split at made
  · simp only [bind_ok_iff, Word.sub_eq_ok_iff, pure_ok_iff] at made
    obtain ⟨_, ⟨le, rfl⟩, rfl⟩ := made
    exact .inl ⟨_, _, rfl, le, rfl⟩
  · cases made
    split
    · next zero => exact .inr (.inl ⟨zero, rfl⟩)
    · exact .inr (.inr rfl)

/-- An index divided by the length of a bank. -/
inductive QuotientAs (idx : TypedExpr) (length : Nat) : TypedExpr → Prop where
  | whole (unit : length.log2 = 0) : QuotientAs idx length idx
  | shifted : QuotientAs idx length (.binop (.ubit idx.ty.width) .shr idx (.lit length.log2))

theorem QuotientAs.width {length : Nat} {bank : TypedExpr} (quotient : QuotientAs idx length bank) :
    bank.ty.width = idx.ty.width := by
  cases quotient <;> rfl

/-- The part of the bank number that an index contributes: a quotient, maybe scaled. -/
theorem bankTerm_ok {length stride : Nat} (made : bankTerm idx length stride = .ok e) :
    ∃ bank, QuotientAs idx length bank ∧ (e = bank ∧ stride = 1 ∨
      e = .binop (.ubit (idx.ty.width + bitsNeeded stride)) .mul bank (.lit stride)) := by
  have scale {bank : TypedExpr} (quotient : QuotientAs idx length bank)
      (made : (if stride = 1 then pure bank else widened .mul bank (.lit stride)) = .ok e) :
      ∃ bank, QuotientAs idx length bank ∧ (e = bank ∧ stride = 1 ∨
        e = .binop (.ubit (idx.ty.width + bitsNeeded stride)) .mul bank (.lit stride)) := by
    refine ⟨bank, quotient, ?_⟩
    split at made
    · next one =>
      cases made
      exact .inl ⟨rfl, one⟩
    · rw [eq_of_widened made, quotient.width]
      exact .inr rfl
  unfold bankTerm at made
  dsimp only at made
  split at made
  · next unit =>
    rw [pure_bind] at made
    exact scale (.whole unit) made
  · obtain ⟨bank, shifted, made⟩ := bind_ok_iff.mp made
    cases eq_of_widened shifted
    exact scale .shifted made

theorem maskedOffset_cases {length : Nat} (made : maskedOffset idx length = .ok e) :
    length = 1 ∧ e = .lit 0 ∨
      length ≠ 1 ∧ e = .binop (.ubit idx.ty.width) .bitAnd idx (.lit (length - 1)) := by
  unfold maskedOffset at made
  split at made
  · next one =>
    cases made
    exact .inl ⟨one, rfl⟩
  · next several =>
    simp only [bind_ok_iff, Word.sub_eq_ok_iff] at made
    obtain ⟨_, ⟨_, rfl⟩, masked⟩ := made
    exact .inr ⟨several, eq_of_widened masked⟩

/-- The terms are added up, and then the known part of the bank number unless it is zero. -/
theorem selector_cases {base : Nat} {terms : List TypedExpr} (made : selector base terms = .ok e) :
    terms = [] ∧ e = .lit base ∨ ∃ term rest sum, terms = term :: rest ∧
      rest.foldlM (widened .add) term = .ok sum ∧
        (base = 0 ∧ e = sum ∨ widened .add sum (.lit base) = .ok e) := by
  cases terms with
  | nil =>
    cases made
    exact .inl ⟨rfl, rfl⟩
  | cons term rest =>
    simp only [selector, bind_ok_iff] at made
    obtain ⟨sum, summed, made⟩ := made
    refine .inr ⟨term, rest, sum, rfl, summed, ?_⟩
    split at made
    · exact .inr made
    · next zero =>
      cases made
      exact .inl ⟨by omega, rfl⟩

/-- What a literal and the numbers of banks have, and a widened sum has from its parts, the flat bank
number has. -/
theorem selector_keeps {P : TypedExpr → Prop} {base : Nat} {terms : List TypedExpr} {flat : TypedExpr}
    (summed : selector base terms = .ok flat) (literal : P (.lit base)) (all : ∀ term ∈ terms, P term)
    (adds : ∀ lhs rhs sum, P lhs → P rhs → widened .add lhs rhs = .ok sum → P sum) : P flat := by
  obtain ⟨_, rfl⟩ | ⟨term, rest, sum, rfl, folded, last⟩ := selector_cases summed
  · exact literal
  · obtain ⟨first, others⟩ := List.forall_mem_cons.mp all
    have total : P sum :=
      foldlM_keeps (fun lhs term member sum holds => adds lhs term sum holds (others term member)) first folded
    rcases last with ⟨_, rfl⟩ | added
    · exact total
    · exact adds _ _ _ total literal added

theorem Rotation.eq_of_ty {r : Rotation} {ty : Ty} (typed : r.ty = .ok ty) :
    ty = .ubit (bitsNeeded (r.banks - 1)) := by
  simp only [Rotation.ty, bind_ok_iff, Word.sub_eq_ok_iff, pure_ok_iff] at typed
  obtain ⟨_, ⟨_, rfl⟩, rfl⟩ := typed
  rfl

theorem Rotation.eq_of_wrap {r : Rotation} {wrapped : TypedExpr} (made : r.wrap e = .ok wrapped) :
    ∃ ty, r.ty = .ok ty ∧ wrapped = .binop ty .bitAnd e (.lit (r.banks - 1)) := by
  simp only [Rotation.wrap, bind_ok_iff, Word.sub_eq_ok_iff, pure_ok_iff] at made
  obtain ⟨ty, typed, _, ⟨_, rfl⟩, rfl⟩ := made
  exact ⟨ty, typed, rfl⟩

theorem rotated_cases {rotation : Option Rotation} (made : rotated rotation lhs = .ok e) :
    rotation = none ∧ e = lhs ∨ ∃ r ty sum, rotation = some r ∧ r.ty = .ok ty ∧
      widened .add lhs (.var ty r.register) = .ok sum ∧ r.wrap sum = .ok e := by
  cases rotation with
  | none =>
    cases made
    exact .inl ⟨rfl, rfl⟩
  | some r =>
    simp only [rotated, bind_ok_iff] at made
    obtain ⟨ty, typed, sum, added, wrapped⟩ := made
    exact .inr ⟨r, ty, sum, rfl, typed, added, wrapped⟩

end

/-! ### Expressions -/

/-- The physical form of a placed access: of one memory if its bank is known, else, if it is read,
of all memories. -/
inductive ResolvedAs (ctx : Context) (array : String) (layout : Layout) (ty : Ty) (writes : Bool)
    (p : Placement) : TypedExpr → Prop where
  | direct {banks : List String} {bank : String} (named : layout.banks = .ok banks)
      (known : p.terms = []) (fixed : ctx.rotations.lookup array = none)
      (found : banks[p.base]? = some bank) : ResolvedAs ctx array layout ty writes p (.mem ty bank p.addr)
  | multiplexed {banks : List String} {flat select : TypedExpr} (named : layout.banks = .ok banks)
      (reads : writes = false)
      (varies : p.terms ≠ [] ∨ (ctx.rotations.lookup array).isSome = true)
      (summed : selector p.base p.terms = .ok flat)
      (selected : rotated (ctx.rotations.lookup array) flat = .ok select) :
      ResolvedAs ctx array layout ty writes p (.muxRead ty banks select p.addr)

mutual

/-- The physical form of an expression that is read. -/
inductive ReadAs (ctx : Context) (env : Env) : TypedExpr → TypedExpr → Prop where
  | int (ty : Ty) (n : Nat) : ReadAs ctx env (.int ty n) (.int ty n)
  | bool (ty : Ty) (b : Bool) : ReadAs ctx env (.bool ty b) (.bool ty b)
  | var (ty : Ty) (name : String) : ReadAs ctx env (.var ty name) (.var ty name)
  | binop {ty : Ty} {op : BinOp} {lhs lhs' rhs rhs' : TypedExpr} (left : ReadAs ctx env lhs lhs')
      (right : ReadAs ctx env rhs rhs') :
      ReadAs ctx env (.binop ty op lhs rhs) (.binop ty op lhs' rhs')
  | access {ty : Ty} {array : String} {idxs : List TypedExpr} {layout : Layout}
      {strides : List Nat} {p : Placement} {e : TypedExpr}
      (bound : env.get? array = some (.array layout)) (strided : layout.strides = .ok strides)
      (placed : PlacedAs ctx env 0 idxs (layout.dims.zip strides) p)
      (resolved : ResolvedAs ctx array layout ty false p e) :
      ReadAs ctx env (.access ty array idxs) e
  | app {ty : Ty} {func : String} {args banks : List String}
      (given : banksOf env args = .ok banks) :
      ReadAs ctx env (.app ty func args) (.app ty func banks)
  | mem (ty : Ty) (mem : String) (addr : List TypedExpr) :
      ReadAs ctx env (.mem ty mem addr) (.mem ty mem addr)
  | muxRead (ty : Ty) (banks : List String) (select : TypedExpr) (addr : List TypedExpr) :
      ReadAs ctx env (.muxRead ty banks select addr) (.muxRead ty banks select addr)

/-- Where the indices of an access lead, from a known part of the flat bank number on. -/
inductive PlacedAs (ctx : Context) (env : Env) :
    Nat → List TypedExpr → List (Dim × Nat) → Placement → Prop where
  | done {base : Nat} {idxs : List TypedExpr} {dims : List (Dim × Nat)}
      (ended : idxs = [] ∨ dims = []) : PlacedAs ctx env base idxs dims ⟨base, [], []⟩
  | known {base bank stride : Nat} {idx idx' offset : TypedExpr} {idxs : List TypedExpr}
      {dim : Dim} {dims : List (Dim × Nat)} {rest : Placement} (value : ReadAs ctx env idx idx')
      (static : staticBank? env idx' dim = .ok (some bank))
      (addressed : staticOffset idx' (bank * dim.bank) = .ok offset)
      (others : PlacedAs ctx env (base + bank * stride) idxs dims rest)
      (words : base + bank * stride < Word.capacity Word.sizeBits ∧
        bank * dim.bank < Word.capacity Word.sizeBits) :
      PlacedAs ctx env base (idx :: idxs) ((dim, stride) :: dims)
        { rest with addr := offset :: rest.addr }
  | varying {base stride : Nat} {idx idx' term offset : TypedExpr} {idxs : List TypedExpr}
      {dim : Dim} {dims : List (Dim × Nat)} {rest : Placement} (value : ReadAs ctx env idx idx')
      (dynamic : staticBank? env idx' dim = .ok none) (power : isPowerOfTwo dim.bank = true)
      (chosen : bankTerm idx' dim.bank stride = .ok term)
      (addressed : maskedOffset idx' dim.bank = .ok offset)
      (others : PlacedAs ctx env base idxs dims rest) :
      PlacedAs ctx env base (idx :: idxs) ((dim, stride) :: dims)
        { rest with terms := term :: rest.terms, addr := offset :: rest.addr }

end

/-- The physical form of a target. -/
inductive WrittenAs (ctx : Context) (env : Env) : TypedExpr → TypedExpr → Prop where
  | element {ty : Ty} {array : String} {idxs : List TypedExpr} {layout : Layout}
      {strides : List Nat} {p : Placement} {e : TypedExpr}
      (bound : env.get? array = some (.array layout)) (strided : layout.strides = .ok strides)
      (placed : PlacedAs ctx env 0 idxs (layout.dims.zip strides) p)
      (resolved : ResolvedAs ctx array layout ty true p e) :
      WrittenAs ctx env (.access ty array idxs) e
  | other {e : TypedExpr} (notAccess : ∀ ty array idxs, e ≠ .access ty array idxs) :
      WrittenAs ctx env e e

theorem layoutOf_ok {env : Env} {array : String} {layout : Layout}
    (found : layoutOf env array = .ok layout) : env.get? array = some (.array layout) := by
  unfold layoutOf at found
  split at found
  · next bound =>
    cases found
    exact bound
  · exact (refuse_ok_iff.mp found).elim

theorem resolve_ok {ctx : Context} {pos : Nat} {array : String} {layout : Layout} {ty : Ty}
    {writes : Bool} {p : Placement} {e : TypedExpr}
    (success : (resolve ctx pos array layout ty writes p).result = .ok e) :
    ResolvedAs ctx array layout ty writes p e := by
  simp only [resolve, Outcome.result_bind, Outcome.result_lift_fault, bind_ok_iff,
    lift_ok_iff] at success
  obtain ⟨banks, named, success⟩ := success
  split at success
  · next static =>
    rw [Bool.and_eq_true, List.isEmpty_iff, Option.isNone_iff_eq_none] at static
    split at success
    · exact (refuse_ok_iff.mp success).elim
    · next found =>
      cases success
      exact .direct named static.1 static.2 found
  · next varies =>
    split at success
    · exact (refuse_ok_iff.mp success).elim
    · next reads =>
      simp only [Outcome.result_bind, Outcome.result_lift_fault, Outcome.result_tell,
        Outcome.result_pure, bind_ok_iff, lift_ok_iff, Except.ok.injEq] at success
      obtain ⟨flat, summed, select, selected, _, _, rfl⟩ := success
      refine .multiplexed named (by simpa using reads) ?_ summed selected
      rcases Classical.em (p.terms = []) with known | unknown
      · exact .inr (by simpa [known, Option.isSome_iff_ne_none] using varies)
      · exact .inl unknown

/-- Where the first index of an access leads: to a known bank, or to one that varies. -/
theorem place_cons_ok {ctx : Context} {env : Env} {pos : Nat} {array : String} {base : Nat}
    {idx : TypedExpr} {idxs : List TypedExpr} {dim : Dim} {stride : Nat} {dims : List (Dim × Nat)}
    {p : Placement}
    (success : (place ctx env pos array base (idx :: idxs) ((dim, stride) :: dims)).result = .ok p) :
    ∃ idx', (read ctx env pos idx).result = .ok idx' ∧
      ((∃ bank offset rest, staticBank? env idx' dim = .ok (some bank) ∧
          staticOffset idx' (bank * dim.bank) = .ok offset ∧
          (base + bank * stride < Word.capacity Word.sizeBits ∧
            bank * dim.bank < Word.capacity Word.sizeBits) ∧
          (place ctx env pos array (base + bank * stride) idxs dims).result = .ok rest ∧
          p = { rest with addr := offset :: rest.addr }) ∨
        ∃ term offset rest, staticBank? env idx' dim = .ok none ∧ isPowerOfTwo dim.bank = true ∧
          bankTerm idx' dim.bank stride = .ok term ∧ maskedOffset idx' dim.bank = .ok offset ∧
          (place ctx env pos array base idxs dims).result = .ok rest ∧
          p = { rest with terms := term :: rest.terms, addr := offset :: rest.addr }) := by
  simp only [place, Outcome.result_bind, Outcome.result_lift_fault, bind_ok_iff,
    lift_ok_iff] at success
  obtain ⟨idx', value, bank, static, success⟩ := success
  refine ⟨idx', value, ?_⟩
  split at success
  · simp only [Outcome.result_bind, Outcome.result_lift_fault, Outcome.result_pure, bind_ok_iff,
      lift_ok_iff, Word.mul_eq_ok_iff, Word.add_eq_ok_iff, Except.ok.injEq] at success
    obtain ⟨_, ⟨_, rfl⟩, _, ⟨flat, rfl⟩, _, ⟨start, rfl⟩, _, addressed, rest, others, rfl⟩ := success
    exact .inl ⟨_, _, rest, static, addressed, ⟨flat, start⟩, others, rfl⟩
  · split at success
    · simp only [Outcome.result_bind, Outcome.result_lift, refuse_bind_ok_iff] at success
    · next power =>
      simp only [Outcome.result_bind, Outcome.result_lift_fault, Outcome.result_pure, bind_ok_iff,
        lift_ok_iff, Except.ok.injEq] at success
      obtain ⟨_, chosen, _, addressed, rest, others, rfl⟩ := success
      exact .inr ⟨_, _, rest, static, by simpa using power, chosen, addressed, others, rfl⟩

/-- An access goes through the layout of its array. -/
theorem access_ok {ctx : Context} {env : Env} {pos : Nat} {array : String} {idxs : List TypedExpr}
    {ty : Ty} {writes : Bool} {e : TypedExpr}
    (success : (do
      let layout ← layoutOf env array
      let strides ← layout.strides
      let placed ← place ctx env pos array 0 idxs (layout.dims.zip strides)
      resolve ctx pos array layout ty writes placed : Outcome TypedExpr).result = .ok e) :
    ∃ layout strides p, env.get? array = some (.array layout) ∧ layout.strides = .ok strides ∧
      (place ctx env pos array 0 idxs (layout.dims.zip strides)).result = .ok p ∧
      ResolvedAs ctx array layout ty writes p e := by
  simp only [Outcome.result_bind, Outcome.result_lift, Outcome.result_lift_fault,
    bind_ok_iff, lift_ok_iff] at success
  obtain ⟨layout, found, strides, strided, p, placed, resolved⟩ := success
  exact ⟨layout, strides, p, layoutOf_ok found, strided, placed, resolve_ok resolved⟩

mutual

theorem read_ok {ctx : Context} {env : Env} {pos : Nat} :
    (e : TypedExpr) → {e' : TypedExpr} → (read ctx env pos e).result = .ok e' →
      ReadAs ctx env e e'
  | .int ty n, _, success => by
    cases success
    exact .int ty n
  | .bool ty b, _, success => by
    cases success
    exact .bool ty b
  | .var ty name, _, success => by
    cases success
    exact .var ty name
  | .binop ty op lhs rhs, _, success => by
    simp only [read, Outcome.result_bind, Outcome.result_pure, bind_ok_iff,
      Except.ok.injEq] at success
    obtain ⟨_, left, _, right, rfl⟩ := success
    exact .binop (read_ok lhs left) (read_ok rhs right)
  | .access ty array idxs, _, success => by
    rw [read] at success
    obtain ⟨_, _, _, bound, strided, placed, resolved⟩ := access_ok success
    exact .access bound strided (place_ok idxs _ placed) resolved
  | .app ty func args, _, success => by
    simp only [read, Outcome.result_bind, Outcome.result_lift, Outcome.result_pure, bind_ok_iff,
      Except.ok.injEq] at success
    obtain ⟨_, given, rfl⟩ := success
    exact .app given
  | .mem ty mem addr, _, success => by
    cases success
    exact .mem ty mem addr
  | .muxRead ty banks select addr, _, success => by
    cases success
    exact .muxRead ty banks select addr

theorem place_ok {ctx : Context} {env : Env} {pos : Nat} {array : String} {base : Nat} :
    (idxs : List TypedExpr) → (dims : List (Dim × Nat)) → {p : Placement} →
      (place ctx env pos array base idxs dims).result = .ok p → PlacedAs ctx env base idxs dims p
  | [], _, _, success => by
    cases success
    exact .done (.inl rfl)
  | _ :: _, [], _, success => by
    cases success
    exact .done (.inr rfl)
  | idx :: idxs, (dim, stride) :: dims, p, success => by
    obtain ⟨_, value, ⟨_, _, _, static, addressed, words, others, rfl⟩ |
      ⟨_, _, _, static, power, chosen, addressed, others, rfl⟩⟩ := place_cons_ok success
    · exact .known (read_ok idx value) static addressed (place_ok idxs dims others) words
    · exact .varying (read_ok idx value) static power chosen addressed (place_ok idxs dims others)

end

theorem write_ok {ctx : Context} {env : Env} {pos : Nat} {e e' : TypedExpr}
    (success : (write ctx env pos e).result = .ok e') : WrittenAs ctx env e e' := by
  unfold write at success
  split at success
  · obtain ⟨_, _, _, bound, strided, placed, resolved⟩ := access_ok success
    exact .element bound strided (place_ok _ _ placed) resolved
  · next notAccess =>
    cases success
    exact .other notAccess

theorem ReadAs.ty_eq {ctx : Context} {env : Env} {e e' : TypedExpr} (read : ReadAs ctx env e e') :
    e'.ty = e.ty := by
  cases read with
  | access _ _ _ resolved => cases resolved <;> rfl
  | _ => rfl

theorem ReadAs.ne_app {ctx : Context} {env : Env} {e e' : TypedExpr} (read : ReadAs ctx env e e')
    (value : ∀ ty func args, e ≠ .app ty func args) : ∀ ty func args, e' ≠ .app ty func args := by
  intro ty func args
  cases read with
  | access _ _ _ resolved => cases resolved <;> exact nofun
  | app _ => exact absurd rfl (value _ _ _)
  | _ => exact nofun

/-! ### Commands -/

theorem isArray_of_ofTy? {name : String} {ty : Ty} {layout : Layout}
    (found : Layout.ofTy? name ty = some layout) :
    ∃ elem dims, ty = .array elem dims ∧ layout = ⟨name, elem, dims⟩ := by
  cases ty with
  | array elem dims =>
    cases found
    exact ⟨elem, dims, rfl, rfl⟩
  | _ => cases found

/-- The binding of a declared name. -/
def Binding.ofTy (name : String) (ty : Ty) : Binding :=
  match Layout.ofTy? name ty with
  | some layout => .array layout
  | none => .scalar

mutual

/-- The environment of the commands after a command. -/
def after (env : Env) : TypedCommand → Env
  | .decl _ name ty => env.rebind name (.ofTy name ty)
  | .define _ name _ _ => env.rebind name .scalar
  | .seq _ cmds => afterSeq env cmds
  | _ => env

def afterSeq (env : Env) : List TypedCommand → Env
  | [] => env
  | cmd :: cmds => afterSeq (after env cmd) cmds

end

/-- A step of a rotation sets its register to the next turn. -/
theorem Rotation.step_update {r : Rotation} {pos : Nat} {step : TypedCommand}
    (stepped : r.step pos = .ok step) :
    ∃ ty, r.ty = .ok ty ∧ ∃ sum, widened .add (.var ty r.register) (.lit 1) = .ok sum ∧
      ∃ next, r.wrap sum = .ok next ∧ step = .update pos (.var ty r.register) next := by
  simp only [Rotation.step, bind_ok_iff, pure_ok_iff] at stepped
  obtain ⟨ty, typed, sum, added, next, wrapped, rfl⟩ := stepped
  exact ⟨ty, typed, sum, added, next, wrapped, rfl⟩

/-- The declarations of an array's banks: one of them stands alone, more stand in sequence. -/
theorem declBanks_split {l : Layout} {pos : Nat} {cmd : TypedCommand} (banked : declBanks l pos = .ok cmd) :
    ∃ ds, l.split pos = .ok ds ∧ ((∃ d, ds = [d] ∧ cmd = .decl pos d.name d.ty) ∨
      ds.length ≠ 1 ∧ cmd = .seq pos (ds.map fun d => .decl pos d.name d.ty)) := by
  simp only [declBanks, bind_ok_iff] at banked
  obtain ⟨ds, named, banked⟩ := banked
  refine ⟨ds, named, ?_⟩
  split at banked
  · next decl single =>
    cases banked
    obtain ⟨d, rfl, rfl⟩ := List.map_eq_singleton_iff.mp single
    exact .inl ⟨d, rfl, rfl⟩
  · next several =>
    cases banked
    refine .inr ⟨fun one => ?_, rfl⟩
    obtain ⟨d, rfl⟩ := List.length_eq_one_iff.mp one
    exact several _ rfl

/-- The environment behind declarations. -/
def declared (env : Env) (ds : List Decl) : Env :=
  ds.foldl (fun env d => env.rebind d.name (.ofTy d.name d.ty)) env

mutual

/-- The physical form of a command in an environment. -/
inductive BankedCommand (ctx : Context) : Env → TypedCommand → TypedCommand → Prop where
  | array {env : Env} {pos : Nat} {name : String} {ty : Ty} {layout : Layout}
      {banks : TypedCommand} (found : Layout.ofTy? name ty = some layout)
      (split : declBanks layout pos = .ok banks) :
      BankedCommand ctx env (.decl pos name ty) banks
  | scalar {env : Env} {pos : Nat} {name : String} {ty : Ty}
      (found : Layout.ofTy? name ty = none) :
      BankedCommand ctx env (.decl pos name ty) (.decl pos name ty)
  | define {env : Env} {pos : Nat} {name : String} {ty : Ty} {init init' : TypedExpr}
      (value : ReadAs ctx env init init') :
      BankedCommand ctx env (.define pos name ty init) (.define pos name ty init')
  | seq {env : Env} {pos : Nat} {cmds cmds' : List TypedCommand}
      (all : BankedSeq ctx env cmds cmds') :
      BankedCommand ctx env (.seq pos cmds) (.seq pos cmds')
  | branch {env : Env} {pos : Nat} {cond cond' : TypedExpr} {onTrue onTrue' : TypedCommand}
      {onFalse onFalse' : Option TypedCommand}
      (value : ReadAs ctx env cond cond')
      (yes : BankedCommand ctx env.enter onTrue onTrue')
      (no : BankedElse ctx env.enter onFalse onFalse') :
      BankedCommand ctx env (.branch pos cond onTrue onFalse) (.branch pos cond' onTrue' onFalse')
  | loop {env : Env} {pos : Nat} {header : LoopHeader} {body body' : TypedCommand}
      (nonempty : 0 < header.stop)
      (round : BankedCommand ctx (env.enter.rebind header.iter
        (.iterator ⟨header.start, header.stop - 1⟩)) body body') :
      BankedCommand ctx env (.loop pos header body) (.loop pos header body')
  | update {env : Env} {pos : Nat} {target target' value value' : TypedExpr}
      (place : WrittenAs ctx env target target')
      (read : ReadAs ctx env value value') :
      BankedCommand ctx env (.update pos target value) (.update pos target' value')
  | reduce {env : Env} {pos : Nat} {op : BinOp} {target target' value value' : TypedExpr}
      (place : WrittenAs ctx env target target')
      (read : ReadAs ctx env value value') :
      BankedCommand ctx env (.reduce pos op target value) (.reduce pos op target' value')
  | eval {env : Env} {pos : Nat} {e e' : TypedExpr} (value : ReadAs ctx env e e') :
      BankedCommand ctx env (.eval pos e) (.eval pos e')
  | rotate {env : Env} {pos : Nat} {array : String} {rotation : Rotation} {step : TypedCommand}
      (rotated : ctx.rotations.lookup array = some rotation)
      (stepped : rotation.step pos = .ok step) :
      BankedCommand ctx env (.advance pos array) step
  | still {env : Env} {pos : Nat} {array : String} (fixed : ctx.rotations.lookup array = none) :
      BankedCommand ctx env (.advance pos array) (.skip pos)
  | skip {env : Env} {pos : Nat} : BankedCommand ctx env (.skip pos) (.skip pos)

inductive BankedSeq (ctx : Context) : Env → List TypedCommand → List TypedCommand → Prop where
  | nil {env : Env} : BankedSeq ctx env [] []
  | cons {env : Env} {cmd cmd' : TypedCommand} {cmds cmds' : List TypedCommand}
      (first : BankedCommand ctx env cmd cmd') (rest : BankedSeq ctx (after env cmd) cmds cmds') :
      BankedSeq ctx env (cmd :: cmds) (cmd' :: cmds')

inductive BankedElse (ctx : Context) : Env → Option TypedCommand → Option TypedCommand → Prop where
  | none {env : Env} : BankedElse ctx env none none
  | some {env : Env} {cmd cmd' : TypedCommand} (banked : BankedCommand ctx env cmd cmd') :
      BankedElse ctx env (some cmd) (some cmd')

end

mutual

theorem bankCommand_ok {ctx : Context} {env : Env} :
    (cmd : TypedCommand) → {banked : TypedCommand} → {env' : Env} →
      (bankCommand ctx env cmd).result = .ok (banked, env') →
      BankedCommand ctx env cmd banked ∧ env' = after env cmd
  | .decl pos name ty, banked, env', success => by
    unfold bankCommand at success
    split at success
    · next layout found =>
      simp only [Outcome.result_bind, Outcome.result_lift_fault, Outcome.result_pure, bind_ok_iff,
        lift_ok_iff, Except.ok.injEq, Prod.mk.injEq] at success
      obtain ⟨_, split, rfl, rfl⟩ := success
      exact ⟨.array found split, by simp only [after, Binding.ofTy, found]⟩
    · next found =>
      cases success
      exact ⟨.scalar found, by simp only [after, Binding.ofTy, found]⟩
  | .define pos name ty init, banked, env', success => by
    simp only [bankCommand, Outcome.result_bind, Outcome.result_pure, bind_ok_iff,
      Except.ok.injEq, Prod.mk.injEq] at success
    obtain ⟨_, value, rfl, rfl⟩ := success
    exact ⟨.define (read_ok init value), rfl⟩
  | .seq pos cmds, banked, env', success => by
    simp only [bankCommand, Outcome.result_bind, Outcome.result_pure, bind_ok_iff,
      Except.ok.injEq, Prod.mk.injEq] at success
    obtain ⟨⟨_, _⟩, rest, rfl, rfl⟩ := success
    obtain ⟨all, last⟩ := bankSeq_ok cmds rest
    exact ⟨.seq all, last⟩
  | .branch pos cond onTrue onFalse, banked, env', success => by
    simp only [bankCommand, Outcome.result_bind, Outcome.result_pure, bind_ok_iff,
      Except.ok.injEq, Prod.mk.injEq] at success
    obtain ⟨_, value, ⟨_, _⟩, yes, _, no, rfl, rfl⟩ := success
    exact ⟨.branch (read_ok cond value) (bankCommand_ok onTrue yes).1 (bankElse_ok onFalse no), rfl⟩
  | .loop pos header body, banked, env', success => by
    simp only [bankCommand, Outcome.result_bind, Outcome.result_lift_fault, Outcome.result_pure,
      bind_ok_iff, lift_ok_iff, Word.sub_eq_ok_iff, Except.ok.injEq, Prod.mk.injEq] at success
    obtain ⟨_, ⟨nonempty, rfl⟩, ⟨_, _⟩, round, rfl, rfl⟩ := success
    exact ⟨.loop nonempty (bankCommand_ok body round).1, rfl⟩
  | .update pos target value, banked, env', success => by
    simp only [bankCommand, Outcome.result_bind, Outcome.result_pure, bind_ok_iff,
      Except.ok.injEq, Prod.mk.injEq] at success
    obtain ⟨_, place, _, read, rfl, rfl⟩ := success
    exact ⟨.update (write_ok place) (read_ok value read), rfl⟩
  | .reduce pos op target value, banked, env', success => by
    simp only [bankCommand, Outcome.result_bind, Outcome.result_pure, bind_ok_iff,
      Except.ok.injEq, Prod.mk.injEq] at success
    obtain ⟨_, place, _, read, rfl, rfl⟩ := success
    exact ⟨.reduce (write_ok place) (read_ok value read), rfl⟩
  | .eval pos e, banked, env', success => by
    simp only [bankCommand, Outcome.result_bind, Outcome.result_pure, bind_ok_iff,
      Except.ok.injEq, Prod.mk.injEq] at success
    obtain ⟨_, value, rfl, rfl⟩ := success
    exact ⟨.eval (read_ok e value), rfl⟩
  | .advance pos array, banked, env', success => by
    unfold bankCommand at success
    split at success
    · next rotated =>
      simp only [Outcome.result_bind, Outcome.result_lift_fault, Outcome.result_pure, bind_ok_iff,
        lift_ok_iff, Except.ok.injEq, Prod.mk.injEq] at success
      obtain ⟨_, stepped, rfl, rfl⟩ := success
      exact ⟨.rotate rotated stepped, rfl⟩
    · next fixed =>
      cases success
      exact ⟨.still fixed, rfl⟩
  | .skip pos, banked, env', success => by
    cases success
    exact ⟨.skip, rfl⟩

theorem bankSeq_ok {ctx : Context} {env : Env} :
    (cmds : List TypedCommand) → {banked : List TypedCommand} → {env' : Env} →
      (bankSeq ctx env cmds).result = .ok (banked, env') →
      BankedSeq ctx env cmds banked ∧ env' = afterSeq env cmds
  | [], banked, env', success => by
    cases success
    exact ⟨.nil, rfl⟩
  | cmd :: cmds, banked, env', success => by
    simp only [bankSeq, Outcome.result_bind, Outcome.result_pure, bind_ok_iff,
      Except.ok.injEq, Prod.mk.injEq] at success
    obtain ⟨⟨_, _⟩, first, ⟨_, _⟩, rest, rfl, rfl⟩ := success
    obtain ⟨banked, rfl⟩ := bankCommand_ok cmd first
    obtain ⟨rest, last⟩ := bankSeq_ok cmds rest
    exact ⟨.cons banked rest, last⟩

theorem bankElse_ok {ctx : Context} {env : Env} :
    (cmd : Option TypedCommand) → {banked : Option TypedCommand} →
      (bankElse ctx env cmd).result = .ok banked → BankedElse ctx env cmd banked
  | none, banked, success => by
    cases success
    exact .none
  | some cmd, banked, success => by
    simp only [bankElse, Outcome.result_bind, Outcome.result_pure, bind_ok_iff,
      Except.ok.injEq] at success
    obtain ⟨⟨_, _⟩, banked, rfl⟩ := success
    exact .some (bankCommand_ok cmd banked).1

end

/-! ### Declarations -/

/-- The banks of declarations: an array becomes its banks, and a scalar stays. -/
inductive BankedDecls : Env → List Decl → List Decl → Env → Prop where
  | nil {env : Env} : BankedDecls env [] [] env
  | array {env env' : Env} {pos : Nat} {name : String} {elem : Ty} {dims : List Dim}
      {ds banks rest : List Decl} (split : Layout.split ⟨name, elem, dims⟩ pos = .ok banks)
      (others : BankedDecls (env.rebind name (.array ⟨name, elem, dims⟩)) ds rest env') :
      BankedDecls env (⟨pos, name, .array elem dims⟩ :: ds) (banks ++ rest) env'
  | scalar {env env' : Env} {d : Decl} {ds rest : List Decl}
      (found : Layout.ofTy? d.name d.ty = none)
      (others : BankedDecls (env.rebind d.name .scalar) ds rest env') :
      BankedDecls env (d :: ds) (d :: rest) env'

theorem isArray_of_ofTy?_none {name : String} {ty : Ty} (found : Layout.ofTy? name ty = none) :
    ty.isArray = false := by
  cases ty with
  | array elem dims => cases found
  | _ => rfl

theorem bankDecls_ok {env env' : Env} {ds banked : List Decl}
    (success : bankDecls env ds = .ok (banked, env')) : BankedDecls env ds banked env' := by
  induction ds generalizing env banked with
  | nil =>
    cases success
    exact .nil
  | cons d ds ih =>
    unfold bankDecls at success
    split at success
    · next found =>
      obtain ⟨pos, name, ty⟩ := d
      obtain ⟨elem, dims, rfl, rfl⟩ := isArray_of_ofTy? found
      simp only [bind_ok_iff, lift_ok_iff, pure_ok_iff, Prod.mk.injEq] at success
      obtain ⟨banks, split, ⟨_, _⟩, rest, rfl, rfl⟩ := success
      exact .array split (ih rest)
    · next found =>
      simp only [bind_ok_iff, pure_ok_iff, Prod.mk.injEq] at success
      obtain ⟨⟨_, _⟩, rest, rfl, rfl⟩ := success
      exact .scalar found (ih rest)

theorem BankedDecls.env_eq {env env' : Env} {ds banked : List Decl}
    (split : BankedDecls env ds banked env') : env' = declared env ds := by
  induction split with
  | nil => rfl
  | array _ _ ih => exact ih
  | scalar found _ ih => simpa only [declared, List.foldl_cons, Binding.ofTy, found] using ih

theorem bankDecls_env {env env' : Env} {ds banked : List Decl}
    (success : bankDecls env ds = .ok (banked, env')) : env' = declared env ds :=
  (bankDecls_ok success).env_eq

/-! ### Programs -/

mutual

/-- The advances of a command are those of all commands in it. -/
theorem advance_mem_preorder_iff {pos : Nat} {array : String} : (cmd : TypedCommand) →
    (.advance pos array ∈ cmd.preorder ↔ (array, pos) ∈ advances cmd)
  | .seq _ cmds => by
    simp [Command.preorder, advances, advance_mem_preorderSeq_iff cmds]
  | .branch _ _ onTrue onFalse => by
    simp [Command.preorder, advances, advance_mem_preorder_iff onTrue,
      advance_mem_preorderElse_iff onFalse]
  | .loop _ _ body => by
    simp [Command.preorder, advances, advance_mem_preorder_iff body]
  | .advance _ _ => by
    simp [Command.preorder, advances, and_comm]
  | .decl .. | .define .. | .update .. | .reduce .. | .eval .. | .skip _ => by
    simp [Command.preorder, advances]

theorem advance_mem_preorderSeq_iff {pos : Nat} {array : String} : (cmds : List TypedCommand) →
    (.advance pos array ∈ Command.preorderSeq cmds ↔ (array, pos) ∈ advancesOfSeq cmds)
  | [] => by simp [Command.preorderSeq, advancesOfSeq]
  | cmd :: cmds => by
    simp [Command.preorderSeq, advancesOfSeq, advance_mem_preorder_iff cmd,
      advance_mem_preorderSeq_iff cmds]

theorem advance_mem_preorderElse_iff {pos : Nat} {array : String} : (cmd : Option TypedCommand) →
    (.advance pos array ∈ Command.preorderElse cmd ↔ (array, pos) ∈ advancesOfElse cmd)
  | none => by simp [Command.preorderElse, advancesOfElse]
  | some cmd => by simp [Command.preorderElse, advancesOfElse, advance_mem_preorder_iff cmd]

end

theorem firstOfEach_subset (entries : List (String × Nat)) : firstOfEach entries ⊆ entries := by
  have general : ∀ (rest seen : List (String × Nat)),
      List.eraseDupsBy.loop (fun x y => x.1 == y.1) rest seen ⊆ seen ++ rest := by
    intro rest
    induction rest with
    | nil =>
      intro seen entry member
      rw [List.eraseDupsBy.loop, List.mem_reverse] at member
      rw [List.append_nil]
      exact member
    | cons first rest ih =>
      intro seen entry member
      rw [List.eraseDupsBy.loop] at member
      split at member
      · rcases List.mem_append.mp (ih seen member) with old | later
        · exact List.mem_append_left _ old
        · exact List.mem_append_right _ (List.mem_cons_of_mem _ later)
      · rcases List.mem_append.mp (ih (first :: seen) member) with old | later
        · rcases List.mem_cons.mp old with rfl | old
          · exact List.mem_append_right _ List.mem_cons_self
          · exact List.mem_append_left _ old
        · exact List.mem_append_right _ (List.mem_cons_of_mem _ later)
  exact general entries []

/-- An array that is advanced gets a register, unless it is in one piece. -/
theorem setUpRotations_cons {statements : Statements} {body : TypedCommand} {env : Env}
    {taken : List String} {array : String} {pos : Nat} {rest : List (String × Nat)}
    {prologue : Prologue}
    (success : (setUpRotations statements body env taken ((array, pos) :: rest)).result =
      .ok prologue) :
    ∃ layout banks, advancedLayout env body array = .ok layout ∧ layout.bankCount = .ok banks ∧
      (banks = 1 ∧ (setUpRotations statements body env taken rest).result = .ok prologue ∨
        ∃ register ty inner, register = unboundName s!"{array}_bank" env taken ∧
          (banks ≠ 1 ∧ isPowerOfTwo banks = true) ∧ Rotation.ty ⟨register, banks⟩ = .ok ty ∧
          (setUpRotations statements body (env.rebind register .scalar) (register :: taken)
            rest).result = .ok inner ∧
          prologue = { inner with
            rotations := (array, ⟨register, banks⟩) :: inner.rotations
            setup := .define pos register ty (.lit 0) :: inner.setup }) := by
  simp only [setUpRotations, Outcome.result_bind, Outcome.result_lift,
    Outcome.result_lift_fault, bind_ok_iff, lift_ok_iff] at success
  obtain ⟨layout, found, banks, counted, success⟩ := success
  refine ⟨layout, banks, found, counted, ?_⟩
  split at success
  · next single => exact .inl ⟨single, success⟩
  · next several =>
    split at success
    · simp only [Outcome.result_bind, Outcome.result_lift, refuse_bind_ok_iff] at success
    · next power =>
      simp only [Outcome.result_bind, Outcome.result_lift_fault, Outcome.result_tell,
        Outcome.result_pure, bind_ok_iff, lift_ok_iff, Except.ok.injEq] at success
      obtain ⟨ty, typed, _, _, inner, others, rfl⟩ := success
      exact .inr ⟨_, ty, inner, rfl, ⟨several, by simpa using power⟩, typed, others, rfl⟩

/-- A rotation counts through a power of two. -/
theorem setUpRotations_powers {statements : Statements} {body : TypedCommand} {env : Env}
    {taken : List String} {advanced : List (String × Nat)} {prologue : Prologue}
    (success : (setUpRotations statements body env taken advanced).result = .ok prologue)
    {array : String} {rotation : Rotation}
    (found : prologue.rotations.lookup array = some rotation) :
    isPowerOfTwo rotation.banks = true := by
  induction advanced generalizing env taken prologue with
  | nil =>
    cases success
    cases found
  | cons entry advanced ih =>
    obtain ⟨_, _, _, _, ⟨_, rest⟩ | ⟨_, _, inner, _, ⟨_, power⟩, _, rest, rfl⟩⟩ :=
      setUpRotations_cons success
    · exact ih rest found
    · rw [List.lookup_cons] at found
      split at found
      · cases found
        exact power
      · exact ih rest found

theorem bankBody_ok {statements : Statements} {env : Env} {body banked : TypedCommand}
    (success : (bankBody statements env body).result = .ok banked) :
    ∃ prologue inner, (setUpRotations statements body env (binders body)
        (firstOfEach (advances body))).result = .ok prologue ∧
      BankedCommand ⟨statements, prologue.rotations⟩ prologue.env body inner ∧
      banked = if prologue.setup.isEmpty then inner
        else .seq inner.pos (prologue.setup ++ [inner]) := by
  simp only [bankBody, Outcome.result_bind, bind_ok_iff] at success
  obtain ⟨prologue, setUp, ⟨inner, _⟩, split, success⟩ := success
  refine ⟨prologue, inner, setUp, (bankCommand_ok body split).1, ?_⟩
  split at success
  · next none =>
    cases success
    rw [if_pos none]
  · next some =>
    cases success
    rw [if_neg some]

theorem bankFunction_ok {statements : Statements} {f f' : Function Ty TypedExpr}
    (success : (bankFunction statements f).result = .ok f') :
    ∃ params env body, bankDecls {} f.params = .ok (params, env) ∧
      (bankBody statements env f.body).result = .ok body ∧ f' = ⟨f.pos, f.name, params, body⟩ := by
  simp only [bankFunction, Outcome.result_bind, Outcome.result_lift, Outcome.result_tell,
    Outcome.result_pure, bind_ok_iff, Except.ok.injEq] at success
  obtain ⟨⟨params, env⟩, split, body, banked, _, _, rfl⟩ := success
  exact ⟨params, env, body, split, banked, rfl⟩

theorem forall₂_bankFunctions {statements : Statements} {fs fs' : List (Function Ty TypedExpr)}
    (success : (bankFunctions statements fs).result = .ok fs') :
    List.Forall₂ (fun f f' => (bankFunction statements f).result = .ok f') fs fs' := by
  induction fs generalizing fs' with
  | nil =>
    cases success
    exact .nil
  | cons f fs ih =>
    simp only [bankFunctions, Outcome.result_bind, Outcome.result_pure, bind_ok_iff,
      Except.ok.injEq] at success
    obtain ⟨f', first, rest, others, rfl⟩ := success
    exact .cons first (ih others)

end Banking

theorem Program.toBanks_ok {statements : Statements} {p : TypedProgram} {banked : BankedProgram}
    (success : (p.toBanks statements).result = .ok banked) :
    ∃ env, (Banking.bankFunctions statements p.defs).result = .ok banked.program.defs ∧
      Banking.bankDecls {} p.decls = .ok (banked.program.decls, env) ∧
      Banking.memoriesOf {} p.decls = .ok banked.memories ∧
      (p.body = none ∧ banked.program.body = none ∨ ∃ body body', p.body = some body ∧
        banked.program.body = some body' ∧
        (Banking.bankBody statements env body).result = .ok body') := by
  simp only [toBanks, Outcome.result_bind, Outcome.result_lift, bind_ok_iff] at success
  obtain ⟨defs, functions, ⟨decls, env⟩, storage, memories, tabled, success⟩ := success
  refine ⟨env, ?_⟩
  split at success
  · next absent =>
    cases success
    exact ⟨functions, storage, tabled, .inl ⟨absent, rfl⟩⟩
  · next body present =>
    simp only [Outcome.result_bind, Outcome.result_map, bind_ok_iff, map_ok_iff] at success
    obtain ⟨_, ⟨body', banked, rfl⟩, _, _, success⟩ := success
    cases success
    exact ⟨functions, storage, tabled, .inr ⟨body, body', present, rfl, banked⟩⟩

end BankedLoops
