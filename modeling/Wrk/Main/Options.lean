import Wrk.HttpParser.Url
import Wrk.Units.Scan

/-!
# The Command Line

`parse_args`. The options are what `getopt_long` returns one after another,
with their arguments, and the operands are the arguments that are left from
`optind` on, of which the first is the URL. Whatever goes wrong, the function
returns -1; what differs is the text it prints first.

## Main definitions

* `Opt`: An option with its argument.
* `Config`: The fields of `cfg` that the command line sets.
* `parseOption`: The body of the loop.
* `parseArgs`: The function, with the texts it prints when it fails.

## Theorems

* `parseArgs_ok`: What is known of a command line that is accepted.
* `parseOptions_induct`: What every option keeps, the loop keeps.
* `parseArgs_plain`: A URL alone is run with the defaults.
-/

namespace Wrk

namespace Main

open HttpParser (Bytes bytes)

open HttpParser.Url (Parts scriptParseUrl)

/-- What `getopt_long` returns. The last is `h`, `?`, `:`, and the `r` that no
    case is about. -/
inductive Opt where
  | threads (optarg : Bytes)
  | connections (optarg : Bytes)
  | duration (optarg : Bytes)
  | script (optarg : Bytes)
  | header (optarg : Bytes)
  | latency
  | timeout (optarg : Bytes)
  | version
  | engine (optarg : Bytes)
  | other
  deriving DecidableEq, Repr

/-- The configuration. The fields that are set later are zero after
    `parse_args`. -/
structure Config where
  connections : Nat
  duration : Nat
  threads : Nat
  timeout : Nat
  latency : Bool
  useOffload : Bool
  script : Option Bytes
  engine : Option Bytes
  deriving DecidableEq, Repr

/-- `SOCKET_TIMEOUT_MS`. -/
def socketTimeoutMs : Nat := 2000

def defaults : Config :=
  { connections := 10, duration := 10, threads := 2, timeout := socketTimeoutMs, latency := false,
    useOffload := false, script := none, engine := none }

/-- What the loop writes: the configuration and the headers. -/
structure Parsing where
  cfg : Config
  headers : List Bytes
  deriving DecidableEq, Repr

/-- A scanner called for a field, where a nonzero result is an error. -/
def scanField (scan : Bytes → Nat → Int × Nat) (optarg : Bytes) (n : Nat) : Except Bytes Nat :=
  let r := scan optarg n
  if r.1 ≠ 0 then .error [] else .ok r.2

/-- The body of the loop of `parse_args`. -/
def parseOption (p : Parsing) : Opt → Except Bytes Parsing
  | .threads optarg => do
      let n ← scanField scanMetric optarg p.cfg.threads
      return { p with cfg := { p.cfg with threads := n } }
  | .connections optarg => do
      let n ← scanField scanMetric optarg p.cfg.connections
      return { p with cfg := { p.cfg with connections := n } }
  | .duration optarg => do
      let n ← scanField scanTime optarg p.cfg.duration
      return { p with cfg := { p.cfg with duration := n } }
  | .script optarg => return { p with cfg := { p.cfg with script := some optarg } }
  | .header optarg => return { p with headers := p.headers ++ [optarg] }
  | .latency => return { p with cfg := { p.cfg with latency := true } }
  | .timeout optarg => do
      let n ← scanField scanTime optarg p.cfg.timeout
      return { p with cfg := { p.cfg with timeout := wrap64 (n * 1000) } }
  | .version => return p
  | .engine optarg =>
      return { p with cfg := { p.cfg with useOffload := true, engine := some optarg } }
  | .other => .error []

/-- What `parse_args` returns through its arguments. -/
structure Args where
  cfg : Config
  url : Bytes
  parts : Parts
  headers : List Bytes

/-- `parse_args`. An error carries what is printed on the standard error. -/
def parseArgs (options : List Opt) (operands : List Bytes) : Except Bytes Args := do
  let p ← options.foldlM parseOption { cfg := defaults, headers := [] }
  match operands with
  | [] => .error []
  | url :: _ =>
      if p.cfg.threads = 0 ∨ p.cfg.duration = 0 then .error []
      else
        match scriptParseUrl url with
        | none => .error (bytes "invalid URL: " ++ url ++ bytes "\n")
        | some parts =>
            if p.cfg.connections = 0 ∨ p.cfg.connections < p.cfg.threads then
              .error (bytes "number of connections must be >= threads\n")
            else .ok { cfg := p.cfg, url := url, parts := parts, headers := p.headers }

/-- A field that is scanned is one the scanner accepted. -/
theorem scanField_ok (scan : Bytes → Nat → Int × Nat) (optarg : Bytes) (n v : Nat)
    (h : scanField scan optarg n = .ok v) : scan optarg n = (0, v) := by
  unfold scanField at h
  dsimp only at h
  split_ifs at h with hzero
  rw [Except.ok.injEq] at h
  rw [← h, ← not_not.mp hzero]

/-- What every option keeps is kept by the loop. -/
theorem parseOptions_induct (P : Parsing → List Opt → Prop)
    (hstep : ∀ p o p' done, P p done → parseOption p o = .ok p' → P p' (done ++ [o]))
    (options done : List Opt) (p p' : Parsing) (hp : P p done)
    (h : options.foldlM parseOption p = .ok p') : P p' (done ++ options) := by
  induction options generalizing p done with
  | nil =>
      rw [List.foldlM_nil] at h
      cases h
      rw [List.append_nil]
      exact hp
  | cons o os ih =>
      rw [List.foldlM_cons] at h
      cases ho : parseOption p o with
      | error e =>
          rw [ho] at h
          cases h
      | ok q =>
          rw [ho] at h
          -- The option is the last of those that are done.
          have hrest := ih (done ++ [o]) q (hstep p o q done hp ho) h
          rw [List.append_assoc] at hrest
          exact hrest

/-- An accepted command line has options that are accepted, a URL, and numbers
    that pass the checks. -/
theorem parseArgs_ok (options : List Opt) (operands : List Bytes) (a : Args)
    (h : parseArgs options operands = .ok a) :
    options.foldlM parseOption { cfg := defaults, headers := [] } = .ok ⟨a.cfg, a.headers⟩ ∧
      operands.head? = some a.url ∧ scriptParseUrl a.url = some a.parts ∧ 0 < a.cfg.threads ∧
      0 < a.cfg.duration ∧ a.cfg.threads ≤ a.cfg.connections := by
  unfold parseArgs at h
  cases hp : options.foldlM parseOption { cfg := defaults, headers := [] } with
  | error e =>
      rw [hp] at h
      cases h
  | ok p =>
      rw [hp] at h
      cases operands with
      | nil => cases h
      | cons url rest =>
          -- From here on the checks are those of the source, one by one.
          change (if p.cfg.threads = 0 ∨ p.cfg.duration = 0 then _ else _) = _ at h
          by_cases hnumbers : p.cfg.threads = 0 ∨ p.cfg.duration = 0
          · rw [if_pos hnumbers] at h
            cases h
          rw [if_neg hnumbers] at h
          cases hparts : scriptParseUrl url with
          | none =>
              rw [hparts] at h
              cases h
          | some parts =>
              rw [hparts] at h
              dsimp only at h
              split_ifs at h with hconnections
              rw [Except.ok.injEq] at h
              have hchecked : 0 < p.cfg.threads ∧ 0 < p.cfg.duration ∧
                  p.cfg.threads ≤ p.cfg.connections := by
                omega
              rw [← h]
              exact ⟨rfl, rfl, hparts, hchecked⟩

/-- A command line that is only a URL is run with the defaults. -/
theorem parseArgs_plain (url : Bytes) (parts : Parts) (h : scriptParseUrl url = some parts) :
    parseArgs [] [url] = .ok { cfg := defaults, url := url, parts := parts, headers := [] } := by
  unfold parseArgs
  rw [List.foldlM_nil, pure_bind]
  dsimp only
  rw [if_neg (by decide), h]
  exact if_neg (by decide)

end Main

end Wrk
