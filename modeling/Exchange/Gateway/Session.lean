import Mathlib.Data.List.DropRight
import Exchange.Engine.Submit
import Exchange.Gateway.Router

/-!
# JSON sessions

`handle_json_session` of the gateway for any number of clients, with the engine that they
share and the shards behind it. A session deals with one line of its client at a time and
writes its answer before it reads the next. What `serde_json` makes of a line is a parameter.
-/

namespace Exchange

/-- `char::is_whitespace`. -/
def isWhitespace (c : Char) : Bool :=
  let n := c.toNat
  (0x9 ≤ n && n ≤ 0xD) || (0x2000 ≤ n && n ≤ 0x200A) ||
    [0x20, 0x85, 0xA0, 0x1680, 0x2028, 0x2029, 0x202F, 0x205F, 0x3000].contains n

/-- `str::trim`. -/
def trim (line : String) : String :=
  String.ofList ((line.toList.dropWhile isWhitespace).rdropWhile isWhitespace)

def parseInbound (fromStr : String → Except String JsonInbound) (s : String) :
    Except String JsonInbound :=
  (fromStr s).mapError fun e => "json error: " ++ e

def errorLine (msg : String) : String := "\x7b\"t\":\"error\",\"msg\":\"" ++ msg ++ "\"\x7d\n"

/-- The keys of a JSON object come in their order. -/
def submittedLine (seq : Seq) : String :=
  "\x7b\"seq\":" ++ toString seq.toNat ++ ",\"t\":\"submitted\"\x7d\n"

/-- What a session does with a trimmed line. -/
inductive Reaction
  | skip
  | error (answer : String)
  | submit (cmd : Command)

def react (fromStr : String → Except String JsonInbound) (request : String) : Reaction :=
  if request.isEmpty then .skip
  else match parseInbound fromStr request with
    | .error e => .error (errorLine e)
    | .ok msg =>
      match jsonToCommand msg with
      | some cmd => .submit cmd
      | none => .skip

/-- The answer to a submit. -/
def SubmitResult.line : SubmitResult → String
  | .ok seq => submittedLine seq
  | .err _ => errorLine "ring_full"

structure JsonSession where
  unread : List String
  /-- The request whose command is being submitted. -/
  pending : Option String
  /-- The requests that it has dealt with, each with its answer. -/
  answered : List (String × String)
  closed : Bool

def JsonSession.start (lines : List String) : JsonSession := ⟨lines, none, [], false⟩

structure Gateway (C A : Type) where
  sessions : C → JsonSession
  engine : Engine C
  /-- The command that a shard has popped and not applied yet. -/
  handling : Nat → Option Sequenced
  shards : Shards A

inductive GatewayAction (C : Type)
  /-- At time `ts`. -/
  | read (c : C) (ts : Ts)
  /-- The answer to a submit; its write may fail. -/
  | answer (c : C) (written : Bool)
  | leave (c : C)
  | pop (shard : Nat)
  | apply (p : ShardTurn)

section

variable {C A : Type} [DecidableEq C] [Slab A Order]

def Gateway.start (symbols : List (SymbolId × Price)) (numShards : Nat) (lines : C → List String) :
    Gateway C A where
  sessions := fun c => .start (lines c)
  engine := .start C
  handling := fun _ => none
  shards := .start symbols numShards

variable (fromStr : String → Except String JsonInbound) (numShards capacity : Nat)

inductive GatewayStep : Gateway C A → GatewayAction C → Gateway C A → Prop
  | skip {g : Gateway C A} {c : C} {line : String} {rest : List String}
      {answered : List (String × String)} {ts : Ts}
      (hsession : g.sessions c = ⟨line :: rest, none, answered, false⟩)
      (hreact : react fromStr (trim line) = .skip) :
      GatewayStep g (.read c ts)
        { g with sessions := Function.update g.sessions c ⟨rest, none, answered, false⟩ }
  | refuse {g : Gateway C A} {c : C} {line answer : String} {rest : List String}
      {answered : List (String × String)} {ts : Ts}
      (hsession : g.sessions c = ⟨line :: rest, none, answered, false⟩)
      (hreact : react fromStr (trim line) = .error answer) :
      GatewayStep g (.read c ts)
        { g with
          sessions := Function.update g.sessions c
            ⟨rest, none, answered ++ [(trim line, answer)], false⟩ }
  | submit {g : Gateway C A} {c : C} {line : String} {rest : List String}
      {answered : List (String × String)} {cmd : Command} {ts : Ts} {engine : Engine C}
      (hsession : g.sessions c = ⟨line :: rest, none, answered, false⟩)
      (hreact : react fromStr (trim line) = .submit cmd)
      (hstamp : EngineStep numShards capacity g.engine (.stamp c cmd ts) engine) :
      GatewayStep g (.read c ts)
        { g with
          engine
          sessions := Function.update g.sessions c ⟨rest, some (trim line), answered, false⟩ }
  -- only a failed write of an acknowledgement ends the session
  | acknowledge {g : Gateway C A} {c : C} {request : String} {unread : List String}
      {answered : List (String × String)} {y : Submitting} {engine : Engine C} {written : Bool}
      (hsession : g.sessions c = ⟨unread, some request, answered, false⟩)
      (hy : g.engine.submitting c = some y)
      (hpush : EngineStep numShards capacity g.engine (.push c true) engine) :
      GatewayStep g (.answer c written)
        { g with
          engine
          sessions := Function.update g.sessions c
            ⟨unread, none, answered ++ [(request, submittedLine y.sequenced.seq)], !written⟩ }
  | ringFull {g : Gateway C A} {c : C} {request : String} {unread : List String}
      {answered : List (String × String)} {engine : Engine C} {written : Bool}
      (hsession : g.sessions c = ⟨unread, some request, answered, false⟩)
      (hpush : EngineStep numShards capacity g.engine (.push c false) engine) :
      GatewayStep g (.answer c written)
        { g with
          engine
          sessions := Function.update g.sessions c
            ⟨unread, none, answered ++ [(request, errorLine "ring_full")], false⟩ }
  -- the client is gone, or its input has ended
  | leave {g : Gateway C A} {c : C} {unread : List String} {answered : List (String × String)}
      (hsession : g.sessions c = ⟨unread, none, answered, false⟩) :
      GatewayStep g (.leave c)
        { g with
          sessions := Function.update g.sessions c ⟨unread, none, answered, true⟩ }
  | pop {g : Gateway C A} {i : Nat} {e : Enqueued} {rest : List Enqueued} {engine : Engine C}
      (hfree : g.handling i = none) (hring : g.engine.rings i = e :: rest)
      (hpop : EngineStep numShards capacity g.engine (.pop i) engine) :
      GatewayStep g (.pop i)
        { g with engine, handling := Function.update g.handling i (some e.sequenced) }
  | apply {g : Gateway C A} {p : ShardTurn} {shards : Shards A}
      (hcmd : g.handling (shardFor p.cmd.cmd.symbol numShards) = some p.cmd)
      (hshards : ShardsStep numShards g.shards p shards) :
      GatewayStep g (.apply p)
        { g with
          shards
          handling := Function.update g.handling (shardFor p.cmd.cmd.symbol numShards) none }

/-- The step an action makes, if it is one that `fuel` is enough for. A submit is accepted
where there is room. -/
def Gateway.step? (fuel : Nat) (g : Gateway C A) : GatewayAction C → Option (Gateway C A)
  | .read c ts =>
    match g.sessions c with
    | ⟨line :: rest, none, answered, false⟩ =>
      match react fromStr (trim line) with
      | .skip =>
        some { g with sessions := Function.update g.sessions c ⟨rest, none, answered, false⟩ }
      | .error answer =>
        some { g with
          sessions := Function.update g.sessions c
            ⟨rest, none, answered ++ [(trim line, answer)], false⟩ }
      | .submit cmd =>
        (g.engine.step? numShards capacity (.stamp c cmd ts)).map fun engine =>
          { g with
            engine
            sessions := Function.update g.sessions c ⟨rest, some (trim line), answered, false⟩ }
    | _ => none
  | .answer c written =>
    match g.sessions c with
    | ⟨unread, some request, answered, false⟩ =>
      (g.engine.submitting c).bind fun y =>
        match g.engine.step? numShards capacity (.push c true) with
        | some engine =>
          some { g with
            engine
            sessions := Function.update g.sessions c
              ⟨unread, none, answered ++ [(request, submittedLine y.sequenced.seq)], !written⟩ }
        | none =>
          (g.engine.step? numShards capacity (.push c false)).map fun engine =>
            { g with
              engine
              sessions := Function.update g.sessions c
                ⟨unread, none, answered ++ [(request, errorLine "ring_full")], false⟩ }
    | _ => none
  | .leave c =>
    match g.sessions c with
    | ⟨unread, none, answered, false⟩ =>
      some { g with sessions := Function.update g.sessions c ⟨unread, none, answered, true⟩ }
    | _ => none
  | .pop i =>
    match g.handling i, g.engine.rings i with
    | none, e :: _ =>
      (g.engine.step? numShards capacity (.pop i)).map fun engine =>
        { g with engine, handling := Function.update g.handling i (some e.sequenced) }
    | _, _ => none
  | .apply p =>
    let i := shardFor p.cmd.cmd.symbol numShards
    if g.handling i = some p.cmd then
      ((g.shards i).step? fuel p).map fun s =>
        { g with
          shards := Function.update g.shards i s
          handling := Function.update g.handling i none }
    else none

variable {fromStr numShards capacity}

theorem Gateway.step?_sound {fuel : Nat} {g g' : Gateway C A} {a : GatewayAction C}
    (h : g.step? fromStr numShards capacity fuel a = some g') :
    GatewayStep fromStr numShards capacity g a g' := by
  cases a with
  | read c ts =>
    dsimp only [step?] at h
    split at h
    · next hsession =>
      split at h
      · next hreact =>
        cases h
        exact .skip hsession hreact
      · next hreact =>
        cases h
        exact .refuse hsession hreact
      · next hreact =>
        obtain ⟨engine, hstamp, rfl⟩ := Option.map_eq_some_iff.1 h
        exact .submit hsession hreact (Engine.step?_sound _ _ hstamp)
    · cases h
  | answer c written =>
    dsimp only [step?] at h
    split at h
    · next hsession =>
      obtain ⟨y, hy, h⟩ := Option.bind_eq_some_iff.1 h
      split at h
      · next hpush =>
        cases h
        exact .acknowledge hsession hy (Engine.step?_sound _ _ hpush)
      · obtain ⟨engine, hpush, rfl⟩ := Option.map_eq_some_iff.1 h
        exact .ringFull hsession (Engine.step?_sound _ _ hpush)
    · cases h
  | leave c =>
    dsimp only [step?] at h
    split at h
    · next hsession =>
      cases h
      exact .leave hsession
    · cases h
  | pop i =>
    dsimp only [step?] at h
    split at h
    · next hfree hring =>
      obtain ⟨engine, hpop, rfl⟩ := Option.map_eq_some_iff.1 h
      exact .pop hfree hring (Engine.step?_sound _ _ hpop)
    · cases h
  | apply p =>
    dsimp only [step?] at h
    split at h
    · next hcmd =>
      obtain ⟨s, hstep, rfl⟩ := Option.map_eq_some_iff.1 h
      exact .apply hcmd ⟨s, Shard.step?_sound hstep, rfl⟩
    · cases h

/-- A computed run is a run. -/
theorem Gateway.run_of_foldlM {fuel : Nat} {g g' : Gateway C A} {as : List (GatewayAction C)}
    (h : as.foldlM (step? fromStr numShards capacity fuel) g = some g') :
    Transition.Run (GatewayStep fromStr numShards capacity) g as g' :=
  (Transition.Run.of_foldlM h).mono fun _ _ _ => step?_sound

end

end Exchange
