import BankedLoops.Proofs.Innermost
import BankedLoops.Proofs.Semantics.Run

/-!
# Moments of a run

`moments` lists the commands that a run gets to, in the order in which it begins them, each with the
environment and the store that it begins in; the list of a run that stops goes as far as the run.
`exec_counted` says when a property that counts statements holds at every moment of a run and at its end:
one statement has to keep it.
-/

namespace BankedLoops

/-- A command with no command inside. -/
def Command.isSimple {τ ε : Type} : Command τ ε → Bool
  | .seq .. | .branch .. | .loop .. => false
  | _ => true

namespace Semantics

/-- A command begins: its place in the text, and what the run has then. -/
structure Moment where
  path : List Descent
  env : Env
  store : State

def Moment.under (step : Descent) (now : Moment) : Moment := { now with path := step :: now.path }

/-- What follows a part of a run, unless the run stops there. -/
def behind {α : Type} (ended : Except Stop α) (rest : α → List Moment) : List Moment :=
  match ended with
  | .ok r => rest r
  | .error _ => []

/-- The moments of one round after the other. -/
def rounds (seen : State → Nat → List Moment) (round : State → Nat → Except Stop State) (s : State) :
    List Nat → List Moment
  | [] => []
  | i :: is => seen s i ++ behind (round s i) fun s => rounds seen round s is

mutual

/-- The commands that a run of a command begins, in order, itself first. -/
def moments (m : Machine) (procs : List (String × Procedure)) (env : Env) (s : State) :
    TypedCommand → List Moment
  | .seq _ cmds => ⟨[], env, s⟩ :: momentsSeq m procs env s 0 cmds
  | .branch _ cond onTrue onFalse =>
    ⟨[], env, s⟩ :: behind (eval m env s false cond) fun v =>
      if v ≠ 0 then
        (moments m procs env.enter s onTrue).map (.under .onTrue)
      else
        (momentsElse m procs env.enter s onFalse).map (.under .onFalse)
  | .loop _ header body =>
    ⟨[], env, s⟩ :: rounds
      (fun s i => (moments m procs (env.enter.rebind header.iter (.iterator i)) s body).map (.under .round))
      (fun s i => (exec m procs (env.enter.rebind header.iter (.iterator i)) s body).map Prod.snd) s
      (List.range' header.start (header.stop - header.start))
  | _ => [⟨[], env, s⟩]

/-- Those of commands that have the numbers from `k` on. -/
def momentsSeq (m : Machine) (procs : List (String × Procedure)) (env : Env) (s : State) (k : Nat) :
    List TypedCommand → List Moment
  | [] => []
  | cmd :: cmds =>
    (moments m procs env s cmd).map (.under (.item k)) ++
      behind (exec m procs env s cmd) fun r => momentsSeq m procs r.1 r.2 (k + 1) cmds

def momentsElse (m : Machine) (procs : List (String × Procedure)) (env : Env) (s : State) :
    Option TypedCommand → List Moment
  | none => []
  | some cmd => moments m procs env s cmd

end

/-- How many moments are at such places. -/
def hits (tick : List Descent → Bool) (seen : List Moment) : Nat := seen.countP fun now => tick now.path

section

variable {tick : List Descent → Bool}

@[simp]
theorem hits_cons (now : Moment) (seen : List Moment) :
    hits tick (now :: seen) = (tick now.path).toNat + hits tick seen := by
  rw [hits, List.countP_cons, ← hits, Nat.add_comm]
  cases tick now.path <;> rfl

@[simp]
theorem hits_append (seen later : List Moment) :
    hits tick (seen ++ later) = hits tick seen + hits tick later :=
  List.countP_append

@[simp]
theorem hits_under (step : Descent) (seen : List Moment) :
    hits tick (seen.map (.under step)) = hits (fun path => tick (step :: path)) seen := by
  rw [hits, List.countP_map]
  rfl

end

theorem map_snd_pair (env : Env) (ended : Except Stop (Env × State)) :
    (ended.map Prod.snd).map (fun t => (env, t)) = ended.map fun r => (env, r.2) := by
  cases ended <;> rfl

theorem map_map_pair (env env' : Env) (ended : Except Stop State) :
    (ended.map fun t => (env', t)).map (fun r => (env, r.2)) = ended.map fun t => (env, t) := by
  cases ended <;> rfl

/-! ### Properties that count -/

/-- A property of the number of statements at such places, at every moment of a run and at its end. -/
structure Counted (P : Nat → Env → State → Prop) (tick : List Descent → Bool) (c : Nat)
    (seen : List Moment) (ended : Except Stop (Env × State)) : Prop where
  during : ∀ before now later, seen = before ++ now :: later →
    P (c + hits tick before) now.env now.store
  after : ∀ r, ended = .ok r → P (c + hits tick seen) r.1 r.2

namespace Counted

variable {P : Nat → Env → State → Prop} {tick : List Descent → Bool} {c : Nat} {env : Env} {s : State}
  {seen : List Moment} {ended : Except Stop (Env × State)}

theorem done (holds : P c env s) : Counted P tick c [] (.ok (env, s)) where
  during := by
    intro before now later same
    exact absurd same.symm (List.append_ne_nil_of_right_ne_nil _ (List.cons_ne_nil _ _))
  after := by
    rintro _ ⟨⟩
    exact holds

/-- A moment before a part of a run that begins in it. -/
theorem cons (now : Moment) (holds : P c now.env now.store)
    (rest : Counted P tick (c + (tick now.path).toNat) seen ended) :
    Counted P tick c (now :: seen) ended where
  during := by
    intro before later rest' same
    cases before with
    | nil =>
      cases same
      exact holds
    | cons first before =>
      cases same
      rw [hits_cons, ← Nat.add_assoc]
      exact rest.during before later rest' rfl
  after := by
    intro r success
    rw [hits_cons, ← Nat.add_assoc]
    exact rest.after r success

/-- Of a statement with nothing inside. -/
theorem statement (holds : P c env s)
    (kept : ∀ r, ended = .ok r → P (c + (tick []).toNat) r.1 r.2) :
    Counted P tick c [⟨[], env, s⟩] ended := by
  refine .cons _ holds ⟨?_, kept⟩
  intro before now later same
  exact absurd same.symm (List.append_ne_nil_of_right_ne_nil _ (List.cons_ne_nil _ _))

theorem append {rest : Env × State → List Moment} {more : Env × State → Except Stop (Env × State)}
    (first : Counted P tick c seen ended)
    (second : ∀ r, ended = .ok r → P (c + hits tick seen) r.1 r.2 →
      Counted P tick (c + hits tick seen) (rest r) (more r)) :
    Counted P tick c (seen ++ behind ended rest) (ended >>= more) where
  during := by
    intro before now later whole
    have inSecond {middle : List Moment} (there : behind ended rest = middle ++ now :: later) :
        P (c + hits tick (seen ++ middle)) now.env now.store := by
      cases ran : ended with
      | error stop =>
        rw [ran] at there
        exact absurd there.symm (List.append_ne_nil_of_right_ne_nil _ (List.cons_ne_nil _ _))
      | ok r =>
        rw [ran] at there
        rw [hits_append, ← Nat.add_assoc]
        exact (second r ran (first.after r ran)).during middle now later there
    rcases List.append_eq_append_iff.mp whole with ⟨middle, rfl, there⟩ | ⟨middle, here, there⟩
    · exact inSecond there
    · cases middle with
      | nil =>
        rw [List.append_nil] at here
        rw [← here, ← List.append_nil seen]
        exact inSecond there.symm
      | cons next middle =>
        cases there
        exact first.during before now middle here
  after := by
    intro r success
    obtain ⟨mid, ran, rest⟩ := bind_ok_iff.mp success
    rw [ran, behind, hits_append, ← Nat.add_assoc]
    exact (second mid ran (first.after mid ran)).after r rest

theorem under (step : Descent) (inside : Counted P (fun path => tick (step :: path)) c seen ended) :
    Counted P tick c (seen.map (.under step)) ended where
  during := by
    intro before now later whole
    obtain ⟨first, rest, rfl, rfl, there⟩ := List.map_eq_append_iff.mp whole
    obtain ⟨now, later, rfl, rfl, rfl⟩ := List.map_eq_cons_iff.mp there
    rw [hits_under]
    exact inside.during first now later rfl
  after := by
    intro r success
    rw [hits_under]
    exact inside.after r success

/-- Out of a scope. -/
theorem leave (leaves : ∀ c' env' s', P c' env' s' → P c' env s')
    (inside : Counted P tick c seen ended) :
    Counted P tick c seen (ended.map fun r => (env, r.2)) where
  during := inside.during
  after := by
    intro r success
    obtain ⟨inner, ran, rfl⟩ := map_ok_iff.mp success
    exact leaves _ _ _ (inside.after inner ran)

theorem rounds {seen : State → Nat → List Moment} {round : State → Nat → Except Stop State}
    (one : ∀ c s i, P c env s → Counted P tick c (seen s i) ((round s i).map fun t => (env, t)))
    (holds : P c env s) (is : List Nat) :
    Counted P tick c (rounds seen round s is) ((is.foldlM round s).map fun t => (env, t)) := by
  induction is generalizing c s with
  | nil => exact .done holds
  | cons i is ih =>
    have both : Counted P tick c
        (seen s i ++ behind ((round s i).map fun t => (env, t)) fun r => Semantics.rounds seen round r.2 is)
        (((round s i).map fun t => (env, t)) >>= fun r => (is.foldlM round r.2).map fun t => (env, t)) := by
      refine (one c s i holds).append fun r ran kept => ?_
      obtain ⟨t, _, rfl⟩ := map_ok_iff.mp ran
      exact ih kept
    rw [Semantics.rounds, List.foldlM_cons]
    cases ran : round s i with
    | error stop =>
      rw [ran] at both
      exact both
    | ok t =>
      rw [ran] at both
      exact both

end Counted

/-- What a run of a command keeps, if every statement in it does and the statements at the given places
count. -/
structure Kept (m : Machine) (procs : List (String × Procedure)) (P : Nat → Env → State → Prop)
    (tick : List Descent → Bool) (cmd : TypedCommand) : Prop where
  enter : ∀ c env s, P c env s → P c env.enter s
  leave : ∀ c env s, P c env s → ∀ c' env' s', P c' env' s' → P c' env s'
  round : ∀ path pos header body, cmd.at? path = some (.loop pos header body) →
    ∀ c env s i, P c env s → P c (env.rebind header.iter (.iterator i)) s
  compound : ∀ path inner, cmd.at? path = some inner → inner.isSimple = false → tick path = false
  simple : ∀ path inner, cmd.at? path = some inner → inner.isSimple = true →
    ∀ c env s, P c env s → ∀ r, exec m procs env s inner = .ok r → P (c + (tick path).toNat) r.1 r.2

section

variable {m : Machine} {procs : List (String × Procedure)} {P : Nat → Env → State → Prop}

theorem Kept.inner {tick : List Descent → Bool} {cmd inner : TypedCommand}
    (kept : Kept m procs P tick cmd) {step : Descent} (here : cmd.inner? step = some inner) :
    Kept m procs P (fun path => tick (step :: path)) inner := by
  have deeper {path : List Descent} {deep : TypedCommand} (found : inner.at? path = some deep) :
      cmd.at? (step :: path) = some deep := by
    rw [Command.at?, here]
    exact found
  exact ⟨kept.enter, kept.leave, fun path pos header body found => kept.round _ pos header body (deeper found),
    fun path deep found => kept.compound _ deep (deeper found),
    fun path deep found => kept.simple _ deep (deeper found)⟩

mutual

/-- From one statement to every run. -/
theorem exec_counted : (cmd : TypedCommand) → {tick : List Descent → Bool} → Kept m procs P tick cmd →
    {c : Nat} → {env : Env} → {s : State} → P c env s →
    Counted P tick c (moments m procs env s cmd) (exec m procs env s cmd)
  | .seq pos cmds, tick, kept, c, env, s, holds => by
    have outside := kept.compound [] _ rfl rfl
    refine .cons ⟨[], env, s⟩ holds ?_
    rw [outside]
    exact execSeq_counted cmds 0 (fun j inner found => kept.inner (by rw [Nat.zero_add]; exact found)) holds
  | .branch pos cond onTrue onFalse, tick, kept, c, env, s, holds => by
    have outside := kept.compound [] _ rfl rfl
    refine .cons ⟨[], env, s⟩ holds ?_
    rw [outside, exec]
    cases eval m env s false cond with
    | error stop => exact ⟨(Counted.done holds).during, nofun⟩
    | ok v =>
      rw [ok_bind, behind]
      have entered := kept.enter c env s holds
      split
      · have yes : Kept m procs P (fun path => tick (.onTrue :: path)) onTrue := kept.inner rfl
        exact ((exec_counted onTrue yes entered).under .onTrue).leave (kept.leave c env s holds)
      · have no : ∀ inner, onFalse = some inner →
            Kept m procs P (fun path => tick (.onFalse :: path)) inner := fun _ given => kept.inner given
        have inside := ((execElse_counted onFalse no entered).under .onFalse).leave (kept.leave c env s holds)
        rw [map_map_pair] at inside
        exact inside
  | .loop pos header body, tick, kept, c, env, s, holds => by
    have outside := kept.compound [] _ rfl rfl
    refine .cons ⟨[], env, s⟩ holds ?_
    rw [outside]
    have inside : Kept m procs P (fun path => tick (.round :: path)) body := kept.inner rfl
    refine .rounds (fun c s i holds => ?_) holds _
    have entered := kept.round [] pos header body rfl c env.enter s i (kept.enter c env s holds)
    have one := ((exec_counted body inside entered).under .round).leave (kept.leave c env s holds)
    rw [map_snd_pair]
    exact one
  | .decl .., tick, kept, c, env, s, holds | .define .., tick, kept, c, env, s, holds
  | .update .., tick, kept, c, env, s, holds | .reduce .., tick, kept, c, env, s, holds
  | .eval .., tick, kept, c, env, s, holds | .advance .., tick, kept, c, env, s, holds
  | .skip _, tick, kept, c, env, s, holds => .statement holds (kept.simple [] _ rfl rfl c env s holds)

theorem execSeq_counted : (cmds : List TypedCommand) → (k : Nat) → {tick : List Descent → Bool} →
    (∀ j inner, cmds[j]? = some inner → Kept m procs P (fun path => tick (.item (k + j) :: path)) inner) →
    {c : Nat} → {env : Env} → {s : State} → P c env s →
    Counted P tick c (momentsSeq m procs env s k cmds) (execSeq m procs env s cmds)
  | [], _, _, _, _, _, _, holds => .done holds
  | cmd :: cmds, k, tick, kept, c, env, s, holds => by
    have first := (exec_counted cmd (kept 0 cmd rfl) holds).under (.item k)
    refine first.append fun r _ holds => execSeq_counted cmds (k + 1) (fun j inner found => ?_) holds
    have later := kept (j + 1) inner found
    rw [Nat.add_assoc, Nat.add_comm 1]
    exact later

theorem execElse_counted : (cmd : Option TypedCommand) → {tick : List Descent → Bool} →
    (∀ inner, cmd = some inner → Kept m procs P tick inner) →
    {c : Nat} → {env : Env} → {s : State} → P c env s →
    Counted P tick c (momentsElse m procs env s cmd)
      ((execElse m procs env s cmd).map fun t => (env, t))
  | none, _, _, _, _, _, holds => .done holds
  | some cmd, tick, kept, c, env, s, holds => by
    have kept := kept cmd rfl
    rw [execElse, map_snd_pair]
    exact (exec_counted cmd kept holds).leave (kept.leave c env s holds)

end

end

/-! ### Into a command -/

/-- How a run gets from a command to a command inside it. -/
inductive Enters (m : Machine) (procs : List (String × Procedure)) (env : Env) (s : State) :
    TypedCommand → Descent → Env → State → TypedCommand → Prop where
  | item {pos k : Nat} {cmds : List TypedCommand} {inner : TypedCommand} {r : Env × State}
      (found : cmds[k]? = some inner) (before : execSeq m procs env s (cmds.take k) = .ok r) :
      Enters m procs env s (.seq pos cmds) (.item k) r.1 r.2 inner
  | onTrue {pos : Nat} {cond : TypedExpr} {onTrue : TypedCommand} {onFalse : Option TypedCommand} :
      Enters m procs env s (.branch pos cond onTrue onFalse) .onTrue env.enter s onTrue
  | onFalse {pos : Nat} {cond : TypedExpr} {onTrue onFalse : TypedCommand} :
      Enters m procs env s (.branch pos cond onTrue (some onFalse)) .onFalse env.enter s onFalse
  | round {pos i : Nat} {header : LoopHeader} {body : TypedCommand} {t : State}
      (low : header.start ≤ i) (high : i < header.stop) :
      Enters m procs env s (.loop pos header body) .round (env.enter.rebind header.iter (.iterator i)) t body

section

variable {m : Machine} {procs : List (String × Procedure)} {now : Moment}

theorem exists_of_mem_behind {α : Type} {ended : Except Stop α} {rest : α → List Moment}
    (member : now ∈ behind ended rest) : ∃ r, ended = .ok r ∧ now ∈ rest r := by
  cases ended with
  | error stop => cases member
  | ok r => exact ⟨r, rfl, member⟩

theorem exists_of_mem_rounds {seen : State → Nat → List Moment} {round : State → Nat → Except Stop State}
    {s : State} {is : List Nat} (member : now ∈ rounds seen round s is) :
    ∃ t, ∃ i ∈ is, now ∈ seen t i := by
  induction is generalizing s with
  | nil => cases member
  | cons i is ih =>
    rcases List.mem_append.mp member with here | later
    · exact ⟨s, i, List.mem_cons_self, here⟩
    · obtain ⟨t, _, later⟩ := exists_of_mem_behind later
      obtain ⟨t', j, inside, found⟩ := ih later
      exact ⟨t', j, List.mem_cons_of_mem _ inside, found⟩

theorem exists_of_mem_momentsSeq {cmds : List TypedCommand} {env : Env} {s : State} {k : Nat}
    (member : now ∈ momentsSeq m procs env s k cmds) :
    ∃ j inner r, cmds[j]? = some inner ∧ execSeq m procs env s (cmds.take j) = .ok r ∧
      ∃ below ∈ moments m procs r.1 r.2 inner, now = below.under (.item (k + j)) := by
  induction cmds generalizing env s k with
  | nil => cases member
  | cons cmd cmds ih =>
    rcases List.mem_append.mp member with here | later
    · obtain ⟨below, inside, rfl⟩ := List.mem_map.mp here
      exact ⟨0, cmd, (env, s), rfl, rfl, below, inside, rfl⟩
    · obtain ⟨mid, ran, later⟩ := exists_of_mem_behind later
      obtain ⟨j, inner, r, found, rest, below, inside, rfl⟩ := ih later
      refine ⟨j + 1, inner, r, found, ?_, below, inside, by rw [Nat.add_assoc, Nat.add_comm 1]⟩
      rw [List.take_succ_cons, execSeq, ran]
      exact rest

/-- A run begins a command and gets to the commands inside. -/
theorem cases_of_mem_moments {cmd : TypedCommand} {env : Env} {s : State}
    (member : now ∈ moments m procs env s cmd) : now = ⟨[], env, s⟩ ∨
      ∃ step env' s' inner, Enters m procs env s cmd step env' s' inner ∧
        ∃ below ∈ moments m procs env' s' inner, now = below.under step := by
  cases cmd with
  | seq pos cmds =>
    refine (List.mem_cons.mp member).imp_right fun member => ?_
    obtain ⟨j, inner, r, found, before, below, inside, rfl⟩ := exists_of_mem_momentsSeq member
    rw [Nat.zero_add]
    exact ⟨_, _, _, inner, .item found before, below, inside, rfl⟩
  | branch pos cond onTrue onFalse =>
    refine (List.mem_cons.mp member).imp_right fun member => ?_
    obtain ⟨v, _, member⟩ := exists_of_mem_behind member
    split at member
    · obtain ⟨below, inside, rfl⟩ := List.mem_map.mp member
      exact ⟨_, _, _, _, .onTrue, below, inside, rfl⟩
    · obtain ⟨below, inside, rfl⟩ := List.mem_map.mp member
      cases onFalse with
      | none => cases inside
      | some onFalse => exact ⟨_, _, _, _, .onFalse, below, inside, rfl⟩
  | loop pos header body =>
    refine (List.mem_cons.mp member).imp_right fun member => ?_
    obtain ⟨t, i, counted, member⟩ := exists_of_mem_rounds member
    obtain ⟨below, inside, rfl⟩ := List.mem_map.mp member
    rw [List.mem_range'_1] at counted
    exact ⟨_, _, t, _, .round counted.1 (by omega), below, inside, rfl⟩
  | _ => exact .inl (List.mem_singleton.mp member)

theorem execSeq_append (cmds others : List TypedCommand) (env : Env) (s : State) :
    execSeq m procs env s (cmds ++ others) =
      execSeq m procs env s cmds >>= fun r => execSeq m procs r.1 r.2 others := by
  induction cmds generalizing env s with
  | nil => rfl
  | cons cmd cmds ih =>
    rw [List.cons_append, execSeq, execSeq]
    cases exec m procs env s cmd with
    | error stop => rfl
    | ok r => exact ih r.1 r.2

theorem momentsSeq_append (cmds others : List TypedCommand) (env : Env) (s : State) (k : Nat) :
    momentsSeq m procs env s k (cmds ++ others) = momentsSeq m procs env s k cmds ++
      behind (execSeq m procs env s cmds) fun r =>
        momentsSeq m procs r.1 r.2 (k + cmds.length) others := by
  induction cmds generalizing env s k with
  | nil => rfl
  | cons cmd cmds ih =>
    rw [List.cons_append, momentsSeq, momentsSeq, execSeq, List.append_assoc]
    cases exec m procs env s cmd with
    | error stop => rfl
    | ok r => rw [ok_bind, behind, behind, ih, List.length_cons, Nat.add_assoc, Nat.add_comm 1]

end

end Semantics

end BankedLoops
