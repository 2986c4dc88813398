import Mathlib.Data.List.Basic
import MoonCore.Domain.Ids

/-!
# Startup configuration

`core::config`: the arguments (`splitArgs`), the file they or the environment name (`loadFile`), and
what is made of them (`Config.load`). What the machine says and has, and what an address is, are
parameters (`Host`).

`splitArgs_exact` says which arguments are accepted, as what, and how others are refused,
`load_exact` what the core starts on, and `load_of_eqOn_asked` that the environment counts only
where nothing else has spoken.
-/

namespace MoonCore

/-- Where the certificate and key live. -/
structure Tls where
  cert : String
  key : String
  deriving DecidableEq

/-- What the core runs with. Addresses are of a type `A`. -/
structure Config (A : Type) where
  bind : A
  /-- Where `/metrics` and `/health` are served. -/
  metricsBind : Option A
  token : String
  markets : List MarketKind
  /-- Tickers to stream, as the venue spells them. -/
  tickers : List String
  tls : Option Tls
  deriving DecidableEq

/-- The file, with every field optional. -/
structure FileConfig (A : Type) where
  bind : Option A
  metricsBind : Option A
  token : Option String
  markets : Option (List MarketKind)
  tickers : Option (List String)
  tls : Option Tls

/-- No file. -/
def FileConfig.default {A : Type} : FileConfig A := ⟨none, none, none, none, none, none⟩

/-- Where the core listens unless it is told otherwise. -/
def defaultBind : String := "127.0.0.1:8787"

/-- The file that is read if it is there, when none is named. -/
def defaultConfigPath : String := "config.toml"

/-- A shorter token is refused. -/
def minTokenLen : ℕ := 16

/-- Why a file cannot be read. -/
structure ReadError where
  notFound : Bool
  text : String

/-- What the core asks of the machine it starts on. -/
structure Host (A : Type) where
  env : String → Option String
  readToString : String → Except ReadError String
  /-- `toml::from_str`, unknown fields denied. -/
  fromToml : String → Except String (FileConfig A)
  parse : String → Except String A
  print : A → String
  isLoopback : A → Bool
  exists_ : String → Bool
  toUppercase : String → String
  /-- The address that `defaultBind` is. -/
  default : A
  parse_defaultBind : parse defaultBind = .ok default

/-! ### Arguments -/

/-- What is left of a text behind a front, if it has that front. -/
def behind (front text : String) : Option String :=
  if front.toList.isPrefixOf text.toList then
    some (String.ofList (text.toList.drop front.toList.length))
  else none

/-- The loop of `split_args`, with the path and the tickers so far. -/
def splitArgsLoop (path : Option String) (rest : List String) :
    List String → Except String (Option String × List String)
  | [] => .ok (path, rest)
  | arg :: args =>
    if arg = "--config" then
      match args with
      | [] => .error "--config needs a path"
      | value :: args => splitArgsLoop (some value) rest args
    else
      match behind "--config=" arg with
      | some value => splitArgsLoop (some value) rest args
      | none =>
        if (behind "--" arg).isSome then .error ("unknown flag `" ++ arg ++ "`")
        else splitArgsLoop path (rest ++ [arg]) args

/-- Splits `--config <path>` out of the arguments; the rest are tickers. -/
def splitArgs (args : List String) : Except String (Option String × List String) :=
  splitArgsLoop none [] args

/-- One thing said in the arguments. -/
inductive Arg where
  | named (path : String)
  | assigned (path : String)
  | ticker (text : String)

/-- How it is said. -/
def Arg.texts : Arg → List String
  | named path => ["--config", path]
  | assigned path => ["--config=" ++ path]
  | ticker text => [text]

/-- No ticker looks like a flag. -/
def Arg.Valid : Arg → Prop
  | ticker text => behind "--" text = none
  | _ => True

/-- The path a `--config` names. -/
def Arg.path : Arg → Option String
  | named path => some path
  | assigned path => some path
  | ticker _ => none

/-- What is taken for a ticker. -/
def Arg.text : Arg → Option String
  | ticker text => some text
  | _ => none

/-- A flag that is none of the program's. -/
def UnknownFlag (text : String) : Prop :=
  text ≠ "--config" ∧ behind "--config=" text = none ∧ (behind "--" text).isSome

theorem behind_eq_some {front text rest : String} :
    behind front text = some rest ↔ text = front ++ rest := by
  rw [behind]
  constructor
  · intro h
    split_ifs at h with hfront
    obtain ⟨later, hlater⟩ := List.isPrefixOf_iff_prefix.mp hfront
    rw [← hlater, List.drop_left, Option.some.injEq] at h
    subst h
    refine String.toList_inj.mp ?_
    rw [String.toList_append, String.toList_ofList, hlater]
  · rintro rfl
    have hfront : front.toList.isPrefixOf (front ++ rest).toList = true := by
      rw [String.toList_append]
      exact List.isPrefixOf_iff_prefix.mpr (List.prefix_append _ _)
    rw [if_pos hfront, String.toList_append, List.drop_left, String.ofList_toList]

/-- What looks like the flag looks like a flag. -/
theorem behind_of_config {text : String} (h : (behind "--config=" text).isSome) :
    (behind "--" text).isSome := by
  obtain ⟨rest, hrest⟩ := Option.isSome_iff_exists.mp h
  have htext : text = "--" ++ ("config=" ++ rest) := by
    rw [behind_eq_some.mp hrest, ← String.append_assoc]
    rfl
  rw [behind_eq_some.mpr htext]
  rfl

section

variable {path : Option String} {rest args : List String}

/-- The flag is not the front of itself. -/
theorem ne_config_of_behind {text value : String} (h : behind "--config=" text = some value) :
    text ≠ "--config" := by
  have hself : behind "--config=" "--config" = none := by decide
  rintro rfl
  rw [hself] at h
  cases h

/-- One turn of the loop takes what one argument says. -/
theorem splitArgsLoop_texts {arg : Arg} (h : arg.Valid) (path : Option String)
    (rest args : List String) :
    splitArgsLoop path rest (arg.texts ++ args) =
      splitArgsLoop (arg.path.or path) (rest ++ arg.text.toList) args := by
  cases arg with
  | named value =>
    rw [Arg.texts, List.cons_append, List.singleton_append, splitArgsLoop, if_pos rfl]
    exact congrArg (splitArgsLoop (some value) · args) (List.append_nil rest).symm
  | assigned value =>
    have hfront : behind "--config=" ("--config=" ++ value) = some value := behind_eq_some.mpr rfl
    rw [Arg.texts, List.singleton_append, splitArgsLoop.eq_def]
    dsimp only
    rw [if_neg (ne_config_of_behind hfront), hfront]
    exact congrArg (splitArgsLoop (some value) · args) (List.append_nil rest).symm
  | ticker text =>
    have hflag : behind "--" text = none := h
    have hne : text ≠ "--config" := by
      rintro rfl
      exact absurd hflag (by decide)
    have hnone : behind "--config=" text = none := by
      by_contra hsome
      have hany := behind_of_config (Option.isSome_iff_ne_none.mpr hsome)
      rw [hflag] at hany
      cases hany
    rw [Arg.texts, List.singleton_append, splitArgsLoop.eq_def]
    dsimp only
    rw [if_neg hne, hnone, hflag]
    rfl

/-- The last of more things is the last of the later ones, if there are any. -/
theorem last_or (values : List String) (value : String) (path : Option String) :
    values.getLast?.or (some value) = (value :: values).getLast?.or path := by
  rw [List.getLast?_cons]
  cases values.getLast? <;> rfl

/-- The turns of the loop take what the arguments say, one by one. -/
theorem splitArgsLoop_said {said : List Arg} (h : ∀ arg ∈ said, arg.Valid) (path : Option String)
    (rest args : List String) :
    splitArgsLoop path rest (said.flatMap Arg.texts ++ args) =
      splitArgsLoop ((said.filterMap Arg.path).getLast?.or path)
        (rest ++ said.filterMap Arg.text) args := by
  induction said generalizing path rest with
  | nil => exact congrArg (splitArgsLoop path · args) (List.append_nil rest).symm
  | cons arg said ih =>
    obtain ⟨harg, hsaid⟩ := List.forall_mem_cons.mp h
    rw [List.flatMap_cons, List.append_assoc, splitArgsLoop_texts harg, ih hsaid, List.append_assoc]
    cases arg with
    | ticker text => rfl
    | named value => exact congrArg (splitArgsLoop · _ args) (last_or _ value path)
    | assigned value => exact congrArg (splitArgsLoop · _ args) (last_or _ value path)

/-- Arguments are said one after the other, up to the first that is none. -/
theorem exists_said : ∀ args : List String,
    ∃ said : List Arg, (∀ arg ∈ said, arg.Valid) ∧ ∃ bad, args = said.flatMap Arg.texts ++ bad ∧
      (bad = [] ∨ bad = ["--config"] ∨ ∃ flag more, bad = flag :: more ∧ UnknownFlag flag)
  | [] => ⟨[], nofun, [], rfl, .inl rfl⟩
  | arg :: args => by
    by_cases hconfig : arg = "--config"
    · subst hconfig
      cases args with
      | nil => exact ⟨[], nofun, ["--config"], rfl, .inr (.inl rfl)⟩
      | cons value args =>
        obtain ⟨said, hsaid, bad, rfl, hbad⟩ := exists_said args
        exact ⟨.named value :: said, List.forall_mem_cons.mpr ⟨trivial, hsaid⟩, bad, rfl, hbad⟩
    · cases hassigned : behind "--config=" arg with
      | some value =>
        obtain ⟨said, hsaid, bad, rfl, hbad⟩ := exists_said args
        rw [behind_eq_some.mp hassigned]
        exact ⟨.assigned value :: said, List.forall_mem_cons.mpr ⟨trivial, hsaid⟩, bad, rfl, hbad⟩
      | none =>
        cases hflag : behind "--" arg with
        | some rest =>
          have hunknown : UnknownFlag arg :=
            ⟨hconfig, hassigned, Option.isSome_iff_exists.mpr ⟨rest, hflag⟩⟩
          exact ⟨[], nofun, arg :: args, rfl, .inr (.inr ⟨arg, args, rfl, hunknown⟩)⟩
        | none =>
          obtain ⟨said, hsaid, bad, rfl, hbad⟩ := exists_said args
          exact ⟨.ticker arg :: said, List.forall_mem_cons.mpr ⟨hflag, hsaid⟩, bad, rfl, hbad⟩

/-- An unknown flag ends the loop. -/
theorem splitArgsLoop_unknown {flag : String} (h : UnknownFlag flag) (path : Option String)
    (rest more : List String) :
    splitArgsLoop path rest (flag :: more) = .error ("unknown flag `" ++ flag ++ "`") := by
  obtain ⟨hconfig, hassigned, hflag⟩ := h
  rw [splitArgsLoop.eq_def]
  dsimp only
  rw [if_neg hconfig, hassigned]
  exact if_pos hflag

variable {said : List Arg}

theorem splitArgs_said (h : ∀ arg ∈ said, arg.Valid) :
    splitArgs (said.flatMap Arg.texts) =
      .ok ((said.filterMap Arg.path).getLast?, said.filterMap Arg.text) := by
  have hloop := splitArgsLoop_said h none [] []
  rwa [List.append_nil, Option.or_none, List.nil_append, splitArgsLoop] at hloop

theorem splitArgs_dangling (h : ∀ arg ∈ said, arg.Valid) :
    splitArgs (said.flatMap Arg.texts ++ ["--config"]) = .error "--config needs a path" := by
  rw [splitArgs, splitArgsLoop_said h, splitArgsLoop, if_pos rfl]

theorem splitArgs_unknown (h : ∀ arg ∈ said, arg.Valid) {flag : String} (hflag : UnknownFlag flag)
    (more : List String) : splitArgs (said.flatMap Arg.texts ++ flag :: more) =
      .error ("unknown flag `" ++ flag ++ "`") := by
  rw [splitArgs, splitArgsLoop_said h, splitArgsLoop_unknown hflag]

/-- What is accepted is said. -/
theorem splitArgs_eq_ok {args tickers : List String} {path : Option String} :
    splitArgs args = .ok (path, tickers) ↔
      ∃ said : List Arg, (∀ arg ∈ said, arg.Valid) ∧ args = said.flatMap Arg.texts ∧
        path = (said.filterMap Arg.path).getLast? ∧ tickers = said.filterMap Arg.text := by
  constructor
  · intro h
    obtain ⟨said, hsaid, bad, rfl, rfl | rfl | ⟨flag, more, rfl, hflag⟩⟩ := exists_said args
    · rw [List.append_nil, splitArgs_said hsaid] at h
      cases h
      exact ⟨said, hsaid, List.append_nil _, rfl, rfl⟩
    · rw [splitArgs_dangling hsaid] at h
      cases h
    · rw [splitArgs_unknown hsaid hflag] at h
      cases h
  · rintro ⟨said, hsaid, rfl, rfl, rfl⟩
    exact splitArgs_said hsaid

/-- **Arguments are read as what they say.** They are accepted exactly if they are, one after the
other, a path for the file in either of its two spellings or a ticker that does not look like a
flag; the last path and all tickers, in order, are what is read. They are refused exactly at the
first argument that is none of these, by its name. -/
theorem splitArgs_exact (args : List String) :
    (∀ path tickers, splitArgs args = .ok (path, tickers) ↔
      ∃ said : List Arg, (∀ arg ∈ said, arg.Valid) ∧ args = said.flatMap Arg.texts ∧
        path = (said.filterMap Arg.path).getLast? ∧ tickers = said.filterMap Arg.text) ∧
    ∀ error, splitArgs args = .error error ↔
      ∃ said : List Arg, (∀ arg ∈ said, arg.Valid) ∧
        ((args = said.flatMap Arg.texts ++ ["--config"] ∧ error = "--config needs a path") ∨
          ∃ flag more, args = said.flatMap Arg.texts ++ flag :: more ∧ UnknownFlag flag ∧
            error = "unknown flag `" ++ flag ++ "`") := by
  constructor
  · exact fun _ _ => splitArgs_eq_ok
  · intro error
    constructor
    · intro h
      obtain ⟨said, hsaid, bad, rfl, rfl | rfl | ⟨flag, more, rfl, hflag⟩⟩ := exists_said args
      · rw [List.append_nil, splitArgs_said hsaid] at h
        cases h
      · rw [splitArgs_dangling hsaid] at h
        cases h
        exact ⟨said, hsaid, .inl ⟨rfl, rfl⟩⟩
      · rw [splitArgs_unknown hsaid hflag] at h
        cases h
        exact ⟨said, hsaid, .inr ⟨flag, more, rfl, hflag, rfl⟩⟩
    · rintro ⟨said, hsaid, ⟨rfl, rfl⟩ | ⟨flag, more, rfl, hflag, rfl⟩⟩
      · exact splitArgs_dangling hsaid
      · exact splitArgs_unknown hsaid hflag more

end

/-! ### The file and the environment -/

section

variable {A : Type} (host : Host A)

/-- Reads the config file, if there is one to read. A file that was asked for has to be there. -/
def loadFile (explicit : Option String) : Except String (FileConfig A × Option String) :=
  let (path, required) :=
    match explicit with
    | some path => (path, true)
    | none =>
      match host.env "MOON_CONFIG" with
      | some path => (path, true)
      | none => (defaultConfigPath, false)
  match host.readToString path with
  | .ok text =>
    match host.fromToml text with
    | .ok parsed => .ok (parsed, some path)
    | .error e => .error (path ++ ": " ++ e)
  | .error e =>
    if e.notFound && !required then .ok (.default, none)
    else .error ("cannot read " ++ path ++ ": " ++ e.text)

/-- An address from the environment, where the variable is set: one that does not parse is an
error. -/
def parseEnvAddr (key : String) : Except String (Option A) :=
  match host.env key with
  | none => .ok none
  | some raw =>
    match host.parse raw with
    | .ok addr => .ok (some addr)
    | .error e => .error (key ++ " `" ++ raw ++ "` is not an address: " ++ e)

/-- The first of the paths that is not there. -/
def missing : List (String × String) → Option (String × String)
  | [] => none
  | (what, path) :: more => if host.exists_ path then missing more else some (what, path)

/-- The two files of a `[tls]` section, with what they are for. -/
def Tls.paths (tls : Tls) : List (String × String) :=
  [("certificate", tls.cert), ("private key", tls.key)]

/-- Rules that must hold before a socket is opened. -/
def Config.validate (config : Config A) (source : Option String) : Except String Unit :=
  if config.markets.isEmpty then
    .error "`markets` is empty: the core would subscribe to nothing"
  else if !host.isLoopback config.bind && config.tls.isNone then
    let whereToPutIt :=
      match source with
      | none => "create " ++ defaultConfigPath ++ " with a [tls] section"
      | some path => "add a [tls] section to " ++ path
    .error ("refusing to serve " ++ host.print config.bind ++
      " without TLS: the token would cross the network in the clear. Either bind to loopback, " ++
      "or " ++ whereToPutIt)
  else
    match config.tls with
    | none => .ok ()
    | some tls =>
      match missing host tls.paths with
      | none => .ok ()
      | some (what, path) => .error ("TLS " ++ what ++ " not found: " ++ path)

/-- The token, from the file or else the environment. -/
def Host.token (file : FileConfig A) : Except String String :=
  match file.token.or (host.env "MOON_TOKEN") with
  | none => .error ("no token: set `token` in the config file or MOON_TOKEN — " ++
      "a core without one would serve anyone")
  | some token =>
    if token.utf8ByteSize < minTokenLen then
      .error ("token is shorter than " ++ toString minTokenLen ++ " characters")
    else .ok token

/-- An address, from the file or else the environment. -/
def Host.addr (key : String) (said : Option A) : Except String (Option A) :=
  match said with
  | some addr => .ok (some addr)
  | none => parseEnvAddr host key

/-- Tickers of the command line beat those of the file. -/
def FileConfig.tickersOr (file : FileConfig A) (args : List String) : List String :=
  if !args.isEmpty then args else file.tickers.getD ["BTCUSDT"]

/-- What the core is told, once the file has been read. -/
def assemble (file : FileConfig A) (source : Option String) (args : List String) :
    Except String (Config A) := do
  let token ← host.token file
  let bind ← host.addr "MOON_BIND" file.bind
  let metricsBind ← host.addr "MOON_METRICS_BIND" file.metricsBind
  let tickers := file.tickersOr args
  if tickers.isEmpty then .error "no tickers: the core would connect and stream nothing"
  else
    let config : Config A :=
      { bind := bind.getD host.default
        metricsBind
        token
        markets := file.markets.getD [.spot, .linearPerp]
        tickers := tickers.map host.toUppercase
        tls := file.tls }
    config.validate host source
    return config

/-- The file, then the environment, then what is built in. -/
def Config.load (args : List String) : Except String (Config A) := do
  let (path, tickers) ← splitArgs args
  let (file, source) ← loadFile host path
  assemble host file source tickers

/-- What can be relied on of the configuration of a core that runs. -/
structure Config.Safe (config : Config A) : Prop where
  /-- Nobody guesses the token. -/
  token : 16 ≤ config.token.utf8ByteSize
  markets : config.markets ≠ []
  tickers : config.tickers ≠ []
  /-- The token does not cross a network in the clear. -/
  bind : host.isLoopback config.bind ∨ config.tls.isSome
  cert : ∀ tls ∈ config.tls, host.exists_ tls.cert
  key : ∀ tls ∈ config.tls, host.exists_ tls.key

/-- The file that counts: the one the arguments name, or else the environment, or else the one
in the working directory, which need not be there. -/
inductive FileConfig.Read (host : Host A) (named : Option String) : FileConfig A → Prop
  | asked {path text : String} {file : FileConfig A} :
      named.or (host.env "MOON_CONFIG") = some path → host.readToString path = .ok text →
      host.fromToml text = .ok file → Read host named file
  | unasked {text : String} {file : FileConfig A} : named.or (host.env "MOON_CONFIG") = none →
      host.readToString "config.toml" = .ok text → host.fromToml text = .ok file →
      Read host named file
  | absent {e : ReadError} : named.or (host.env "MOON_CONFIG") = none →
      host.readToString "config.toml" = .error e → e.notFound = true →
      Read host named ⟨none, none, none, none, none, none⟩

/-- What is said of an address: what the file says, or else what a variable of that name does, or
nothing. -/
inductive Host.Says (host : Host A) (key : String) (inFile : Option A) : Option A → Prop
  | file {addr : A} : inFile = some addr → Says host key inFile (some addr)
  | env {raw : String} {addr : A} : inFile = none → host.env key = some raw →
      host.parse raw = .ok addr → Says host key inFile (some addr)
  | nothing : inFile = none → host.env key = none → Says host key inFile none

/-- Where the parts of a configuration are from: the arguments and the file, then the environment,
then what is built in. -/
structure Config.From (file : FileConfig A) (args : List String) (config : Config A) : Prop where
  token : file.token = some config.token ∨
    file.token = none ∧ host.env "MOON_TOKEN" = some config.token
  bind : host.Says "MOON_BIND" file.bind (some config.bind) ∨
    host.Says "MOON_BIND" file.bind none ∧ host.parse "127.0.0.1:8787" = .ok config.bind
  metricsBind : host.Says "MOON_METRICS_BIND" file.metricsBind config.metricsBind
  tickers : args ≠ [] ∧ config.tickers = args.map host.toUppercase ∨
    args = [] ∧ config.tickers = (file.tickers.getD ["BTCUSDT"]).map host.toUppercase
  markets : config.markets = file.markets.getD [.spot, .linearPerp]
  tls : config.tls = file.tls

variable {host} {config : Config A} {file : FileConfig A} {source : Option String}

theorem bind_eq_ok {α β : Type} {x : Except String α} {f : α → Except String β} {b : β} :
    x >>= f = .ok b ↔ ∃ a, x = .ok a ∧ f a = .ok b := by
  cases x with
  | error e => exact ⟨nofun, fun ⟨_, h, _⟩ => nomatch h⟩
  | ok a => exact ⟨fun h => ⟨a, rfl, h⟩, fun ⟨_, h, hb⟩ => by cases h; exact hb⟩

/-- None is missing exactly if all are there. -/
theorem missing_eq_none {files : List (String × String)} :
    missing host files = none ↔ ∀ file ∈ files, host.exists_ file.2 := by
  induction files with
  | nil => exact ⟨fun _ => nofun, fun _ => rfl⟩
  | cons file files ih =>
    rw [missing, List.forall_mem_cons, ← ih]
    by_cases hfile : host.exists_ file.2
    · rw [if_pos hfile, and_iff_right hfile]
    · rw [if_neg hfile]
      exact ⟨nofun, fun h => absurd h.1 hfile⟩

/-- What is checked before a socket is opened. -/
theorem validate_eq_ok : config.validate host source = .ok () ↔
    config.markets ≠ [] ∧ (host.isLoopback config.bind ∨ config.tls.isSome) ∧
      ∀ tls ∈ config.tls, host.exists_ tls.cert ∧ host.exists_ tls.key := by
  unfold Config.validate
  by_cases hmarkets : config.markets = []
  · rw [hmarkets]
    exact ⟨nofun, fun h => absurd rfl h.1⟩
  rw [if_neg (by simpa using hmarkets), and_iff_right hmarkets]
  cases htls : config.tls with
  | none =>
    cases host.isLoopback config.bind with
    | true => exact ⟨fun _ => ⟨.inl rfl, nofun⟩, fun _ => rfl⟩
    | false => exact ⟨nofun, fun h => h.1.elim nofun nofun⟩
  | some tls =>
    rw [if_neg (by simp)]
    have hpaths : missing host tls.paths = none ↔
        host.exists_ tls.cert ∧ host.exists_ tls.key := by
      rw [missing_eq_none, Tls.paths, List.forall_mem_cons, List.forall_mem_singleton]
    dsimp only
    cases hmissing : missing host tls.paths with
    | none => exact ⟨fun _ => ⟨.inr rfl, fun _ h => by cases h; exact hpaths.mp hmissing⟩,
        fun _ => rfl⟩
    | some file =>
      refine ⟨nofun, fun h => ?_⟩
      rw [hpaths.mpr (h.2 tls rfl)] at hmissing
      cases hmissing

/-- The token is the one chosen, if it is long enough. -/
theorem token_eq_ok {token : String} : host.token file = .ok token ↔
    file.token.or (host.env "MOON_TOKEN") = some token ∧ 16 ≤ token.utf8ByteSize := by
  unfold Host.token
  cases file.token.or (host.env "MOON_TOKEN") with
  | none => exact ⟨nofun, fun h => nomatch h.1⟩
  | some chosen =>
    dsimp only
    by_cases hshort : chosen.utf8ByteSize < minTokenLen
    · rw [if_pos hshort]
      refine ⟨nofun, fun h => ?_⟩
      cases h.1
      exact absurd h.2 (Nat.not_le.mpr hshort)
    · rw [if_neg hshort, Except.ok.injEq, Option.some.injEq]
      exact ⟨fun h => ⟨h, h ▸ Nat.not_lt.mp hshort⟩, fun h => h.1⟩

/-- A file somebody named has to be there. -/
theorem loadFile_of_asked {named : Option String} {path : String}
    (h : named.or (host.env "MOON_CONFIG") = some path) :
    loadFile host named =
      match host.readToString path with
      | .ok text =>
        match host.fromToml text with
        | .ok parsed => .ok (parsed, some path)
        | .error e => .error (path ++ ": " ++ e)
      | .error e => .error ("cannot read " ++ path ++ ": " ++ e.text) := by
  have hasked (e : ReadError) : ¬ (e.notFound && !true) = true := by
    rw [Bool.not_true, Bool.and_false]
    exact Bool.false_ne_true
  unfold loadFile
  cases named with
  | some explicit =>
    obtain rfl := Option.some.inj h
    simp only [if_neg (hasked _)]
  | none =>
    rw [Option.none_or] at h
    simp only [h, if_neg (hasked _)]

/-- The one in the working directory need not be there. -/
theorem loadFile_of_unasked {named : Option String}
    (h : named.or (host.env "MOON_CONFIG") = none) :
    loadFile host named =
      match host.readToString "config.toml" with
      | .ok text =>
        match host.fromToml text with
        | .ok parsed => .ok (parsed, some "config.toml")
        | .error e => .error ("config.toml" ++ ": " ++ e)
      | .error e =>
        if e.notFound then .ok (.default, none)
        else .error ("cannot read " ++ "config.toml" ++ ": " ++ e.text) := by
  obtain ⟨rfl, henv⟩ := Option.or_eq_none_iff.mp h
  unfold loadFile
  simp only [henv, Bool.not_false, Bool.and_true]
  rfl

/-- The file that is loaded is the one that counts. -/
theorem loadFile_eq_ok {named : Option String} :
    (∃ source, loadFile host named = .ok (file, source)) ↔ file.Read host named := by
  constructor
  -- A file that was asked for has to be there; the one looked for by itself may be missing.
  · rintro ⟨source, h⟩
    cases hpath : named.or (host.env "MOON_CONFIG") with
    | some path =>
      rw [loadFile_of_asked hpath] at h
      cases hread : host.readToString path with
      | error e => rw [hread] at h; cases h
      | ok text =>
        rw [hread] at h
        cases hparsed : host.fromToml text with
        | error e => simp only [hparsed] at h; cases h
        | ok parsed =>
          simp only [hparsed] at h
          cases h
          exact .asked hpath hread hparsed
    | none =>
      rw [loadFile_of_unasked hpath] at h
      cases hread : host.readToString "config.toml" with
      | error e =>
        rw [hread] at h
        dsimp only at h
        split_ifs at h with hfound
        cases h
        exact .absent hpath hread hfound
      | ok text =>
        rw [hread] at h
        cases hparsed : host.fromToml text with
        | error e => simp only [hparsed] at h; cases h
        | ok parsed =>
          simp only [hparsed] at h
          cases h
          exact .unasked hpath hread hparsed
  · intro h
    cases h with
    | @asked path text _ hpath hread hparsed =>
      refine ⟨some path, ?_⟩
      rw [loadFile_of_asked hpath, hread]
      simp only [hparsed]
    | @unasked text _ hpath hread hparsed =>
      refine ⟨some "config.toml", ?_⟩
      rw [loadFile_of_unasked hpath, hread]
      simp only [hparsed]
    | absent hpath hread hfound =>
      refine ⟨none, ?_⟩
      rw [loadFile_of_unasked hpath, hread]
      exact if_pos hfound

/-- An address that is got is the one that is said. -/
theorem addr_eq_ok {key : String} {inFile got : Option A} :
    host.addr key inFile = .ok got ↔ host.Says key inFile got := by
  constructor
  · intro h
    cases inFile with
    | some addr =>
      cases h
      exact .file rfl
    | none =>
      rw [Host.addr, parseEnvAddr] at h
      cases henv : host.env key with
      | none =>
        rw [henv] at h
        cases h
        exact .nothing rfl henv
      | some raw =>
        rw [henv] at h
        cases hparsed : host.parse raw with
        | error e => simp only [hparsed] at h; cases h
        | ok addr =>
          simp only [hparsed] at h
          cases h
          exact .env rfl henv hparsed
  · intro h
    cases h with
    | file hfile =>
      subst hfile
      rfl
    | env hfile henv hparsed =>
      subst hfile
      rw [Host.addr, parseEnvAddr, henv]
      simp only [hparsed]
    | nothing hfile henv =>
      subst hfile
      rw [Host.addr, parseEnvAddr, henv]

/-- Where nothing is said of the address, it is the one that is built in. -/
theorem bind_iff : (∃ said, host.addr "MOON_BIND" file.bind = .ok said ∧
      config.bind = said.getD host.default) ↔
    host.Says "MOON_BIND" file.bind (some config.bind) ∨
      host.Says "MOON_BIND" file.bind none ∧ host.parse "127.0.0.1:8787" = .ok config.bind := by
  have hdefault : host.parse "127.0.0.1:8787" = .ok host.default := host.parse_defaultBind
  simp only [addr_eq_ok]
  constructor
  · rintro ⟨said, hsaid, hbind⟩
    cases said with
    | some addr => exact .inl (hbind ▸ hsaid)
    | none => exact .inr ⟨hsaid, hbind ▸ hdefault⟩
  · rintro (hsaid | ⟨hsaid, hparsed⟩)
    · exact ⟨_, hsaid, rfl⟩
    · rw [hdefault] at hparsed
      exact ⟨_, hsaid, (Except.ok.inj hparsed).symm⟩

theorem tickers_iff {args : List String} :
    config.tickers = (file.tickersOr args).map host.toUppercase ↔
      args ≠ [] ∧ config.tickers = args.map host.toUppercase ∨
        args = [] ∧ config.tickers = (file.tickers.getD ["BTCUSDT"]).map host.toUppercase := by
  rw [FileConfig.tickersOr]
  cases args <;> simp

/-- What is assembled is what was said, and safe. -/
theorem assemble_eq_ok {args : List String} : assemble host file source args = .ok config ↔
    config.Safe host ∧ config.From host file args := by
  unfold assemble
  constructor
  · intro h
    obtain ⟨token, htoken, h⟩ := bind_eq_ok.mp h
    obtain ⟨bind, hbind, h⟩ := bind_eq_ok.mp h
    obtain ⟨metricsBind, hmetrics, h⟩ := bind_eq_ok.mp h
    dsimp only at h
    split_ifs at h with htickers
    obtain ⟨⟨⟩, hvalid, h⟩ := bind_eq_ok.mp h
    cases h
    obtain ⟨hchosen, hlong⟩ := token_eq_ok.mp htoken
    obtain ⟨hmarkets, hloopback, htls⟩ := validate_eq_ok.mp hvalid
    -- The list is looked at before the upper case, which does not change its length.
    have hsome : file.tickersOr args ≠ [] := by simpa using htickers
    exact ⟨⟨hlong, hmarkets, fun h => hsome (List.map_eq_nil_iff.mp h), hloopback,
        fun tls h => (htls tls h).1, fun tls h => (htls tls h).2⟩,
      ⟨Option.or_eq_some_iff.mp hchosen, bind_iff.mp ⟨bind, hbind, rfl⟩, addr_eq_ok.mp hmetrics,
        tickers_iff.mp rfl, rfl, rfl⟩⟩
  · rintro ⟨hsafe, hfrom⟩
    obtain ⟨bind, hbind, hgot⟩ := bind_iff.mpr hfrom.bind
    have htoken := Option.or_eq_some_iff.mpr hfrom.token
    have hmetrics := addr_eq_ok.mpr hfrom.metricsBind
    have htickers := tickers_iff.mpr hfrom.tickers
    refine bind_eq_ok.mpr ⟨config.token, token_eq_ok.mpr ⟨htoken, hsafe.token⟩, ?_⟩
    refine bind_eq_ok.mpr ⟨bind, hbind, bind_eq_ok.mpr ⟨config.metricsBind, hmetrics, ?_⟩⟩
    have hsome : file.tickersOr args ≠ [] := by
      intro h
      exact hsafe.tickers (by rw [htickers, h]; rfl)
    dsimp only
    rw [if_neg (by simpa using hsome), ← hgot, ← htickers, ← hfrom.markets, ← hfrom.tls]
    exact bind_eq_ok.mpr ⟨(), validate_eq_ok.mpr ⟨hsafe.markets, hsafe.bind,
      fun tls h => ⟨hsafe.cert tls h, hsafe.key tls h⟩⟩, rfl⟩

/-- **The core starts exactly on what was said, and exactly if that is safe.** It starts with a
configuration if and only if this is the one that the arguments, the file they name, the
environment and what is built in make, in this order, and its token is long enough, it streams
something from somewhere, and nothing but loopback is served without a certificate and a key that
are there. -/
theorem load_exact (host : Host A) (args : List String) (config : Config A) :
    Config.load host args = .ok config ↔
      config.Safe host ∧ ∃ (said : List Arg) (file : FileConfig A),
        (∀ arg ∈ said, arg.Valid) ∧ args = said.flatMap Arg.texts ∧
        file.Read host (said.filterMap Arg.path).getLast? ∧
        config.From host file (said.filterMap Arg.text) := by
  unfold Config.load
  constructor
  · intro h
    obtain ⟨⟨path, tickers⟩, hsplit, h⟩ := bind_eq_ok.mp h
    obtain ⟨⟨file, source⟩, hfile, h⟩ := bind_eq_ok.mp h
    obtain ⟨hsafe, hfrom⟩ := assemble_eq_ok.mp h
    obtain ⟨said, hsaid, hargs, rfl, rfl⟩ := splitArgs_eq_ok.mp hsplit
    exact ⟨hsafe, said, file, hsaid, hargs, loadFile_eq_ok.mp ⟨source, hfile⟩, hfrom⟩
  · rintro ⟨hsafe, said, file, hsaid, hargs, hread, hfrom⟩
    obtain ⟨source, hfile⟩ := loadFile_eq_ok.mpr hread
    exact bind_eq_ok.mpr ⟨_, splitArgs_eq_ok.mpr ⟨said, hsaid, hargs, rfl, rfl⟩,
      bind_eq_ok.mpr ⟨(file, source), hfile, assemble_eq_ok.mpr ⟨hsafe, hfrom⟩⟩⟩

/-- The variables that are looked at: those that nothing said before makes needless. -/
inductive Asked (host : Host A) (args : List String) : String → Prop
  | config {said} : splitArgs args = .ok (none, said) → Asked host args "MOON_CONFIG"
  | token {path said file source} : splitArgs args = .ok (path, said) →
      loadFile host path = .ok (file, source) → file.token = none → Asked host args "MOON_TOKEN"
  | bind {path said file source} : splitArgs args = .ok (path, said) →
      loadFile host path = .ok (file, source) → file.bind = none → Asked host args "MOON_BIND"
  | metricsBind {path said file source} : splitArgs args = .ok (path, said) →
      loadFile host path = .ok (file, source) → file.metricsBind = none →
      Asked host args "MOON_METRICS_BIND"

/-- The host in another environment. -/
def Host.within (host : Host A) (env : String → Option String) : Host A := { host with env }

theorem loadFile_within {env : String → Option String} {explicit : Option String}
    (h : explicit = none → env "MOON_CONFIG" = host.env "MOON_CONFIG") :
    loadFile (host.within env) explicit = loadFile host explicit := by
  cases explicit with
  | some path => rfl
  | none =>
    unfold loadFile
    dsimp only [Host.within]
    rw [h rfl]

theorem token_within {env : String → Option String}
    (h : file.token = none → env "MOON_TOKEN" = host.env "MOON_TOKEN") :
    (host.within env).token file = host.token file := by
  unfold Host.token
  dsimp only [Host.within]
  cases htoken : file.token with
  | some token => rfl
  | none => rw [h htoken]

theorem addr_within {env : String → Option String} {key : String} {said : Option A}
    (h : said = none → env key = host.env key) :
    (host.within env).addr key said = host.addr key said := by
  cases said with
  | some addr => rfl
  | none =>
    unfold Host.addr parseEnvAddr
    dsimp only [Host.within]
    rw [h rfl]

theorem missing_within {env : String → Option String} (files : List (String × String)) :
    missing (host.within env) files = missing host files := by
  induction files with
  | nil => rfl
  | cons file files ih =>
    rw [missing, missing, ih]
    rfl

/-- What is checked does not depend on the environment. -/
theorem validate_within {env : String → Option String} :
    config.validate (host.within env) source = config.validate host source := by
  unfold Config.validate
  cases config.tls with
  | none => rfl
  | some tls =>
    simp only [missing_within]
    rfl

theorem assemble_within {env : String → Option String} {args : List String}
    (htoken : file.token = none → env "MOON_TOKEN" = host.env "MOON_TOKEN")
    (hbind : file.bind = none → env "MOON_BIND" = host.env "MOON_BIND")
    (hmetrics : file.metricsBind = none → env "MOON_METRICS_BIND" = host.env "MOON_METRICS_BIND") :
    assemble (host.within env) file source args = assemble host file source args := by
  unfold assemble
  rw [token_within htoken, addr_within hbind, addr_within hmetrics]
  simp only [validate_within]
  rfl

/-- **The file wins over the environment.** How the core starts, the configuration or the refusal,
does not depend on any variable but the four it knows, nor on one of these where the arguments or
the file have said what it is for. -/
theorem load_of_eqOn_asked (host : Host A) (env : String → Option String) (args : List String)
    (h : ∀ key, Asked host args key → env key = host.env key) :
    Config.load (host.within env) args = Config.load host args := by
  unfold Config.load
  cases hsplit : splitArgs args with
  | error e => rfl
  | ok split =>
    obtain ⟨path, said⟩ := split
    have hpath : path = none → env "MOON_CONFIG" = host.env "MOON_CONFIG" := by
      rintro rfl
      exact h _ (.config hsplit)
    show (loadFile (host.within env) path >>= fun p => assemble (host.within env) p.1 p.2 said) =
      (loadFile host path >>= fun p => assemble host p.1 p.2 said)
    rw [loadFile_within hpath]
    cases hfile : loadFile host path with
    | error e => rfl
    | ok loaded =>
      obtain ⟨file, source⟩ := loaded
      exact assemble_within (fun hnone => h _ (.token hsplit hfile hnone))
        (fun hnone => h _ (.bind hsplit hfile hnone))
        fun hnone => h _ (.metricsBind hsplit hfile hnone)

/-- A machine with one file, that leaves none of the variables open. -/
def servedHost : Host String where
  env _ := none
  readToString path :=
    if path = "core.toml" then
      .ok "bind = \"[::1]:1\"\nmetrics_bind = \"[::1]:2\"\ntoken = \"sixteen letters.\"\n"
    else .error ⟨true, "No such file or directory (os error 2)"⟩
  fromToml _ := .ok ⟨some "[::1]:1", some "[::1]:2", some "sixteen letters.", none, none, none⟩
  parse addr :=
    if addr = defaultBind then .ok addr else .error "invalid socket address syntax"
  print addr := addr
  isLoopback _ := true
  exists_ path := path = "core.toml"
  toUppercase text := text
  default := defaultBind
  parse_defaultBind := rfl

/-- Whatever the variables are then. -/
theorem load_of_eqOn_asked_served :
    Config.load (servedHost.within fun _ => some "never read") ["--config", "core.toml"] =
      Config.load servedHost ["--config", "core.toml"] := by
  refine load_of_eqOn_asked servedHost (fun _ => some "never read") ["--config", "core.toml"] ?_
  intro key hasked
  have hsplit : splitArgs ["--config", "core.toml"] = .ok (some "core.toml", []) := rfl
  cases hasked with
  | config h =>
    rw [hsplit] at h
    cases h
  | token h hfile hnone =>
    rw [hsplit] at h
    cases h
    cases hfile
    cases hnone
  | bind h hfile hnone =>
    rw [hsplit] at h
    cases h
    cases hfile
    cases hnone
  | metricsBind h hfile hnone =>
    rw [hsplit] at h
    cases h
    cases hfile
    cases hnone

end

end MoonCore
