import Cik.Library.ByteMemory
import Cik.Source.Types

/-!
# The configuration file

`config.c`. The file is read line by line into a buffer, and `parse_args` takes each line
apart where it lies: it looks for the ends of the name and of the value, and puts a zero at
each. Every look at the line and every write to it is checked to lie between its beginning
and the terminator that `fgets` has left (`none` otherwise). What is printed to the error
stream and what is passed to `parse_variable` is kept as a list of events.

`fopen` and `getaddrinfo` are parameters. That the file is closed is left out.
-/

namespace Cik

/-- A string, without its terminator. -/
abbrev CString := List UInt8

/-- A string literal. -/
def ofLiteral (s : String) : CString := s.toList.map fun c => UInt8.ofNat c.toNat

/-- `isspace`. -/
def isspace (b : UInt8) : Bool := b == 0x20 || (0x09 ≤ b && b ≤ 0x0D)

/-- `RuntimeConfig`. The names of the files with statistics are NULL by default. -/
structure RuntimeConfig where
  /-- The address, in network byte order. -/
  listen_address : UInt32
  /-- The port, in network byte order. -/
  listen_port : UInt16
  /-- The file that is locked. -/
  pid_filename : CString
  /-- The log. -/
  log_filename : CString
  /-- The file the store is written to. -/
  persistence_filename : CString
  /-- Statistics of the entries. -/
  entry_stats_filename : Option CString
  /-- Statistics of the tags. -/
  tag_stats_filename : Option CString
  /-- Statistics of the memory. -/
  memory_stats_filename : Option CString
  /-- Statistics of the clients. -/
  client_stats_filename : Option CString
  /-- Statistics of the workers. -/
  worker_stats_filename : Option CString
  deriving DecidableEq

/-- `runtime_config`, before a file was read. -/
def runtimeConfig : RuntimeConfig where
  listen_address := 0
  listen_port := 0x324F
  pid_filename := ofLiteral "/tmp/cik-server.pid"
  log_filename := ofLiteral "/tmp/cik-server.log"
  persistence_filename := ofLiteral "/tmp/cik-server.persistent-data"
  entry_stats_filename := none
  tag_stats_filename := none
  memory_stats_filename := none
  client_stats_filename := none
  worker_stats_filename := none

/-- What `err_print` is called with. -/
inductive ConfigError where
  /-- `"Could not open %s: %s\n"`. -/
  | open (filename strerror : CString)
  /-- `"Missing assignment in %s on line %d\n"`. -/
  | missingAssignment (lineno : ℕ)
  /-- `"Empty value in %s on line %d\n"`. -/
  | emptyValue (lineno : ℕ)
  /-- `"Failed to parse address '%s': %s\n"`. -/
  | parseAddress (value : CString) (err : ℤ)
  /-- `"Failed to lookup address: %s\n"`. -/
  | lookupAddress (err : ℤ)
  /-- `"Could not parse port number in %s on line %d\n"`. -/
  | parsePort (lineno : ℕ)
  /-- `"Port number %ld out of range in %s on line %d\n"`. -/
  | portRange (port : ℤ) (lineno : ℕ)
  /-- `"Unknown variable '%s' in %s on line %d\n"`. -/
  | unknownVariable (name : CString) (lineno : ℕ)
  deriving DecidableEq

/-! ### Variables -/

/-- What is looked at of an `addrinfo`. -/
structure AddrInfo where
  /-- `ai_family`. -/
  ai_family : ℕ
  /-- `ai_socktype`. -/
  ai_socktype : ℕ
  /-- `ai_protocol`. -/
  ai_protocol : ℕ
  /-- `ai_addrlen`. -/
  ai_addrlen : ℕ
  /-- `sin_addr.s_addr` of `ai_addr`. -/
  s_addr : UInt32

/-- An IPv4 address. -/
def AF_INET : ℕ := 2

/-- A stream socket. -/
def SOCK_STREAM : ℕ := 1

/-- TCP. -/
def IPPROTO_TCP : ℕ := 6

/-- `sizeof (sockaddr_in_t)`. -/
def SOCKADDR_IN_SIZE : ℕ := 16

/-- `ARRAY_COUNT` of the arrays of the names of files, and of the buffer of `parse_args`. -/
def CONFIG_BUFFER_SIZE : ℕ := 0x400

/-- `isdigit`, in the C locale. -/
def isdigit (b : UInt8) : Bool := 0x30 ≤ b && b ≤ 0x39

/-- `strtol (value, &endptr, 10)`: the number, and `endptr - value`. -/
def strtol (value : CString) : ℤ × ℕ :=
  let spaces := value.takeWhile isspace
  let rest := value.dropWhile isspace
  let sign := rest.take 1 |>.filter fun b => b == 0x2B || b == 0x2D
  let digits := (rest.drop sign.length).takeWhile isdigit
  let n : ℕ := digits.foldl (fun n b => n * 10 + (b.toNat - 0x30)) 0
  if digits = [] then (0, 0)
  else
    (max (-2 ^ 63) (min (2 ^ 63 - 1) (if sign = [0x2D] then -(n : ℤ) else n)),
      spaces.length + sign.length + digits.length)

/-- `htons`. -/
def htons (x : UInt16) : UInt16 := x <<< 8 ||| x >>> 8

/-- `strncpy` to an array of that size, whose last byte is made zero. -/
def copyFilename (value : CString) : CString := value.take (CONFIG_BUFFER_SIZE - 1)

/-- `parse_variable`. -/
def parseVariable (getaddrinfo : CString → Except ℤ (List AddrInfo)) (lineno : ℕ)
    (name value : CString) (config : RuntimeConfig) : Except ConfigError RuntimeConfig :=
  if name = ofLiteral "listen_address" then
    match getaddrinfo value with
    | .error err => .error (.parseAddress value err)
    | .ok result =>
      match result.find? fun rp => rp.ai_family == AF_INET && rp.ai_socktype == SOCK_STREAM
          && rp.ai_protocol == IPPROTO_TCP && rp.ai_addrlen == SOCKADDR_IN_SIZE with
      | some rp => .ok { config with listen_address := rp.s_addr }
      | none => .error (.lookupAddress 0)
  else if name = ofLiteral "listen_port" then
    let (port, endptr) := strtol value
    if endptr = 0 then .error (.parsePort lineno)
    else if port < 0 ∨ port > 0xFFFF then .error (.portRange port lineno)
    else .ok { config with listen_port := htons (UInt16.ofNat port.toNat) }
  else if name = ofLiteral "pid_filename" then .ok
    { config with pid_filename := copyFilename value }
  else if name = ofLiteral "log_filename" then .ok
    { config with log_filename := copyFilename value }
  else if name = ofLiteral "persistence_filename" then .ok
    { config with persistence_filename := copyFilename value }
  else if name = ofLiteral "entry_stats_filename" then
    .ok { config with entry_stats_filename := some (copyFilename value) }
  else if name = ofLiteral "tag_stats_filename" then
    .ok { config with tag_stats_filename := some (copyFilename value) }
  else if name = ofLiteral "memory_stats_filename" then
    .ok { config with memory_stats_filename := some (copyFilename value) }
  else if name = ofLiteral "client_stats_filename" then
    .ok { config with client_stats_filename := some (copyFilename value) }
  else if name = ofLiteral "worker_stats_filename" then
    .ok { config with worker_stats_filename := some (copyFilename value) }
  else .error (.unknownVariable name lineno)

/-! ### Lines -/

/-- The buffer with a line from its beginning on, and where `fgets` has left its terminator. -/
structure Line where
  /-- `buffer`. -/
  buffer : ByteMemory
  /-- The first zero. -/
  terminator : ℕ

namespace Line

/-- `*c`. -/
def byteAt (l : Line) (c : ℕ) : Option UInt8 := if c ≤ l.terminator then some (l.buffer c) else none

/-- `*c = '\0'`. -/
def cut (l : Line) (c : ℕ) : Option Line :=
  if c ≤ l.terminator then some { l with buffer := l.buffer.write c [0] } else none

/-- `while (p (*c)) ++c`. -/
def skip (p : UInt8 → Bool) (l : Line) (c : ℕ) : Option ℕ :=
  if c ≤ l.terminator then if p (l.buffer c) then l.skip p (c + 1) else some c else none
termination_by l.terminator + 1 - c

/-- `while (p (*(c - 1))) --c`. -/
def trim (p : UInt8 → Bool) (l : Line) : ℕ → Option ℕ
  | 0 => none
  | c + 1 => if c ≤ l.terminator then if p (l.buffer c) then l.trim p c else some (c + 1) else none

/-- The string at `c`, as another function reads it. -/
def string (l : Line) (c : ℕ) : Option CString := do
  let e ← l.skip (· != 0) c
  return l.buffer.read c (e - c)

/-- What becomes of a line. -/
inductive Outcome where
  /-- Nothing. -/
  | skipped
  /-- `"Missing assignment in %s on line %d\n"`. -/
  | missingAssignment
  /-- `"Empty value in %s on line %d\n"`. -/
  | emptyValue
  /-- `parse_variable (filename, lineno, name, value)`. -/
  | call (name value : CString)
  deriving DecidableEq

/-- A round of `parse_args`, from behind the assignment on. -/
def parseValue (l : Line) (name c : ℕ) : Option (Outcome × ByteMemory) := do
  let c ← l.skip isspace c
  if (← l.byteAt c) = 0 then return (.emptyValue, l.buffer)
  else
    let value := c
    let c ← l.skip (· != 0) c
    let c ← l.trim isspace c
    let l ← l.cut c
    return (.call (← l.string name) (← l.string value), l.buffer)

/-- A round of `parse_args`, from behind the name on. -/
def parseAssignment (l : Line) (name c : ℕ) : Option (Outcome × ByteMemory) := do
  let c ← l.skip isspace c
  if (← l.byteAt c) = 0x3D then l.parseValue name (c + 1) else return (.missingAssignment, l.buffer)

/-- A round of `parse_args`: what becomes of the line, and the buffer. -/
def parse (l : Line) : Option (Outcome × ByteMemory) := do
  let c ← l.skip isspace 0
  if (← l.byteAt c) = 0x23 then return (.skipped, l.buffer)
  else
    let name := c
    let c ← l.skip (fun b => !isspace b && !(b == 0x3D) && !(b == 0)) c
    if (← l.byteAt c) = 0 then return (.skipped, l.buffer)
    else
      let l ← l.cut c
      l.parseAssignment name (c + 1)

end Line

/-! ### The file -/

/-- `fgets`, with room for that many bytes before the terminator: the line, and the rest of the
file. -/
def fgets : ℕ → List UInt8 → CString × List UInt8
  | 0, file => ([], file)
  | _ + 1, [] => ([], [])
  | n + 1, b :: file => if b = 0x0A then ([b], file) else (b :: (fgets n file).1, (fgets n file).2)

theorem length_fgets_le (n : ℕ) (file : List UInt8) : (fgets n file).2.length ≤ file.length := by
  induction n generalizing file with
  | zero => exact Nat.le_refl _
  | succ n ih =>
    cases file with
    | nil => exact Nat.le_refl _
    | cons b file =>
      rw [fgets]
      split_ifs
      · exact Nat.le_succ _
      · exact Nat.le_succ_of_le (ih file)

/-- A byte is read, if there are any. -/
theorem length_fgets_cons_lt (n : ℕ) (b : UInt8) (file : List UInt8) :
    (fgets (n + 1) (b :: file)).2.length < (b :: file).length := by
  rw [fgets]
  split_ifs
  · exact Nat.lt_succ_self _
  · exact Nat.lt_succ_of_le (length_fgets_le n file)

/-- The line in the buffer, behind which the buffer is as it was. -/
def Line.ofString (buffer : ByteMemory) (line : CString) : Line where
  buffer := buffer.write 0 (line ++ [0])
  terminator := (line.takeWhile (· != 0)).length

/-- What is seen of `parse_args`. -/
inductive ConfigEvent where
  /-- A message. -/
  | err_print (error : ConfigError)
  /-- A call. -/
  | parse_variable (lineno : ℕ) (name value : CString)
  deriving DecidableEq

/-- What was seen, and what is returned. -/
structure Parsed where
  /-- In order. -/
  events : List ConfigEvent
  /-- `none` is NULL. -/
  result : Option RuntimeConfig

/-- Something was seen before. -/
def Parsed.after (event : ConfigEvent) (r : Parsed) : Parsed := ⟨event :: r.events, r.result⟩

/-- The end of a round: what is seen, and how the loop goes on. -/
def Line.Outcome.finish (getaddrinfo : CString → Except ℤ (List AddrInfo)) (lineno : ℕ)
    (config : RuntimeConfig) (loop : RuntimeConfig → Option Parsed) : Line.Outcome → Option Parsed
  | .skipped => loop config
  | .missingAssignment => (loop config).map (Parsed.after (.err_print (.missingAssignment lineno)))
  | .emptyValue => (loop config).map (Parsed.after (.err_print (.emptyValue lineno)))
  | .call name value =>
    match parseVariable getaddrinfo lineno name value config with
    | .error e => some ⟨[.parse_variable lineno name value, .err_print e], none⟩
    | .ok config => (loop config).map (Parsed.after (.parse_variable lineno name value))

/-- The loop of `parse_args`. -/
def parseLines (getaddrinfo : CString → Except ℤ (List AddrInfo)) (buffer : ByteMemory) (lineno : ℕ)
    (config : RuntimeConfig) (file : List UInt8) : Option Parsed :=
  match file with
  | [] => some ⟨[], some config⟩
  | b :: file => do
    let line := fgets (CONFIG_BUFFER_SIZE - 1) (b :: file)
    let (outcome, next) ← (Line.ofString buffer line.1).parse
    outcome.finish getaddrinfo (lineno + 1) config fun config =>
      parseLines getaddrinfo next (lineno + 1) config line.2
termination_by file.length
decreasing_by exact length_fgets_cons_lt _ b file

/-- `parse_args`: `argv` without the name of the program. -/
def parseArgs (fopen : CString → Except CString (List UInt8))
    (getaddrinfo : CString → Except ℤ (List AddrInfo)) (buffer : ByteMemory) :
    List CString → Option Parsed
  | [] => some ⟨[], some runtimeConfig⟩
  | filename :: _ =>
    match fopen filename with
    | .error e => some ⟨[.err_print (.open filename e)], none⟩
    | .ok file => parseLines getaddrinfo buffer 0 runtimeConfig file

end Cik
