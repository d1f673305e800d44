import Titun.IpcServer
import Titun.Lib.Text
import Titun.Status

/-! The parsers of the configuration protocol: requests, and the responses with the state. -/
namespace Titun

open Text

/-- The UTF-8 bytes of a line. -/
abbrev Line := Bytes

def keyValue (k : String) (v : Line) : Line := lit k ++ 61 :: v

inductive ParseError where
  | bail (message : Line)
  /-- The stream of lines fails. -/
  | io (error : String)
  | hex
  | bool
  | int
  | address
  deriving DecidableEq

/-- An item of the stream of lines. -/
abbrev Item := Except String Line

structure AddrText where
  ip : IpAddr → Line
  parseIp : Line → Option IpAddr
  socket : SocketAddr → Line
  parseSocket : Line → Option SocketAddr

/-- `x.unwrap()` of a result. -/
def unwrapResult : Except ε α → Exec α
  | .ok a => .ok a
  | .error _ => .error .unwrapNone

structure Peekable where
  inner : List Item
  peeked : Option Item

namespace Peekable

def new (inner : List Item) : Peekable := ⟨inner, none⟩

def items (s : Peekable) : List Item := s.peeked.toList ++ s.inner

def tryNext (s : Peekable) : Except String (Option Line) × Peekable :=
  match s.peeked with
  | some x => (x.map some, { s with peeked := none })
  | none =>
    match s.inner with
    | [] => (.ok none, s)
    | x :: inner => (x.map some, ⟨inner, none⟩)

/-- A line that is peeked at stays, an error does not. -/
def tryPeek (s : Peekable) : Except String (Option Line) × Peekable :=
  match s.peeked with
  | some (.ok x) => (.ok (some x), s)
  | some (.error e) => (.error e, { s with peeked := none })
  | none =>
    match s.inner with
    | [] => (.ok none, s)
    | .ok x :: inner => (.ok (some x), ⟨inner, some (.ok x)⟩)
    | .error e :: inner => (.error e, ⟨inner, none⟩)

@[simp] theorem items_new (inner : List Item) : (new inner).items = inner := rfl

theorem tryPeek_nil {s : Peekable} (items : s.items = []) : s.tryPeek = (.ok none, s) := by
  obtain ⟨inner, peeked⟩ := s
  rcases peeked with _ | x
  · rcases inner with _ | ⟨x, inner⟩
    · rfl
    · cases items
  · cases items

theorem tryPeek_error {s : Peekable} (items : s.items = .error e :: rest) :
    ∃ next, s.tryPeek = (.error e, next) ∧ next.items = rest := by
  obtain ⟨inner, peeked⟩ := s
  rcases peeked with _ | x
  · rcases inner with _ | ⟨x, inner⟩
    · cases items
    · obtain ⟨rfl, rfl⟩ := List.cons.inj items
      exact ⟨_, rfl, rfl⟩
  · obtain ⟨rfl, rfl⟩ := List.cons.inj items
    exact ⟨_, rfl, rfl⟩

theorem tryPeek_ok {s : Peekable} (items : s.items = .ok line :: rest) :
    ∃ next, s.tryPeek = (.ok (some line), next) := by
  obtain ⟨inner, peeked⟩ := s
  rcases peeked with _ | x
  · rcases inner with _ | ⟨x, inner⟩
    · cases items
    · obtain ⟨rfl, rfl⟩ := List.cons.inj items
      exact ⟨_, rfl⟩
  · obtain ⟨rfl, rfl⟩ := List.cons.inj items
    exact ⟨_, rfl⟩

theorem tryNext_nil {s : Peekable} (items : s.items = []) : s.tryNext = (.ok none, s) := by
  obtain ⟨inner, peeked⟩ := s
  rcases peeked with _ | x
  · rcases inner with _ | ⟨x, inner⟩
    · rfl
    · cases items
  · cases items

theorem tryNext_cons {s : Peekable} {x : Item} (items : s.items = x :: rest) :
    s.tryNext = (x.map some, ⟨rest, none⟩) := by
  obtain ⟨inner, peeked⟩ := s
  rcases peeked with _ | y
  · rcases inner with _ | ⟨y, inner⟩
    · cases items
    · obtain ⟨rfl, rfl⟩ := List.cons.inj items
      rfl
  · obtain ⟨rfl, rfl⟩ := List.cons.inj items
    rfl

theorem tryPeek_some {s next : Peekable} (read : s.tryPeek = (.ok (some line), next)) :
    next.items = s.items ∧ ∃ rest, next.tryNext = (.ok (some line), rest) ∧ s.items = .ok line :: rest.items := by
  obtain ⟨inner, peeked⟩ := s
  rcases peeked with _ | e | x
  · rcases inner with _ | ⟨e | x, inner⟩
    · cases read
    · cases read
    · obtain ⟨same, rfl⟩ := Prod.mk.inj read
      obtain rfl := Option.some.inj (Except.ok.inj same)
      exact ⟨rfl, ⟨inner, none⟩, rfl, rfl⟩
  · cases read
  · obtain ⟨same, rfl⟩ := Prod.mk.inj read
    obtain rfl := Option.some.inj (Except.ok.inj same)
    exact ⟨rfl, ⟨inner, none⟩, rfl, rfl⟩

end Peekable

def endOfStream : ParseError := .bail (lit "Unexpected end of input stream")

def invalidLine (line : Line) : ParseError := .bail (lit "Invalid line: " ++ line)

def startsWith (line : Line) (start : String) : Bool := (lit start).isPrefixOf line

def parseBool (v : Line) : Except ParseError Bool :=
  if v = lit "true" then .ok true else if v = lit "false" then .ok false else .error .bool

/-- Parsing an unsigned integer type of `w` bits. -/
def parseUInt (w : Nat) (v : Line) : Except ParseError (BitVec w) :=
  match parseNat (2 ^ w) v with
  | some n => .ok (BitVec.ofNat w n)
  | none => .error .int

def parseInt32 (v : Line) : Except ParseError Int :=
  if v.head? = some 45 then
    match if v.tail.head? = some 43 then none else parseNat (2 ^ 31 + 1) v.tail with
    | some n => .ok (-n)
    | none => .error .int
  else match parseNat (2 ^ 31) v with
    | some n => .ok n
    | none => .error .int

/-- A key of 32 bytes in hexadecimal. -/
def decodeKey (v : Line) (invalid : String) : Except ParseError (U8Array 32) :=
  match hexDecode v with
  | none => .error .hex
  | some bytes =>
    if length : bytes.length = 32 then .ok ⟨bytes, length⟩ else .error (.bail (lit invalid))

def decodeAddress (found : Option α) : Except ParseError α :=
  match found with
  | some a => .ok a
  | none => .error .address

def parseAllowedIp (t : AddrText) (v : Line) : Except ParseError AllowedIp :=
  match splitOnce 47 v with
  | (_, none) => .error (.bail (lit "Invalid allowed ip: " ++ v))
  | (ip, some prefixLen) => do
    let ip ← decodeAddress (t.parseIp ip)
    let prefixLen ← parseUInt 32 prefixLen
    if prefixLen.toNat > ip.width then
      throw (.bail (lit "Invalid prefix length: " ++ decimal prefixLen.toNat))
    return (ip, prefixLen.toNat)

/-- The line that starts the block of a peer. -/
def parsePublicKey (line : Line) : Except ParseError X25519Pubkey :=
  match splitOnce 61 line with
  | (_, none) => .error (invalidLine line)
  | (k, some v) =>
    if k ≠ lit "public_key" then
      .error (.bail (lit "Unexpected line " ++ line ++ lit ", expected public_key"))
    else decodeKey v "Invalid length public key"

/-- What differs between requests and responses. -/
structure Format (C P : Type) where
  newPeer : X25519Pubkey → P
  /-- A line of the block of a peer; nothing for a key that ends the loop. -/
  applyPeer : Line → Line → P → Exec (Except ParseError (Option P))
  /-- A line before the peers; nothing for a key that ends the loop. -/
  applyInterface : Line → Line → C → Except ParseError (Option C)
  push : C → P → C
  /-- What ends everything after the block of a peer. -/
  ends : Line → Bool

namespace Format

variable {C P : Type} (f : Format C P)

/-- The loop over the lines of a block. -/
def peerLoop (publicKeyLine : Line) (s : Peekable) (peer : P) : Exec (Except ParseError P × Peekable) :=
  match _ : s.tryPeek with
  | (.error e, s) => return (.error (.io e), s)
  | (.ok none, s) => return (.error endOfStream, s)
  | (.ok (some line), s) =>
    if line.isEmpty || startsWith line "public_key" then return (.ok peer, s)
    else match splitOnce 61 line with
      | (_, none) => return (.error (invalidLine publicKeyLine), s)
      | (k, some v) => do
        match ← f.applyPeer k v peer with
        | .error e => return (.error e, s)
        | .ok none => return (.ok peer, s)
        | .ok (some peer) =>
          match _ : s.tryNext with
          | (.error _, _) => .error .unwrapNone
          | (.ok _, s) => peerLoop publicKeyLine s peer
termination_by s.items.length
decreasing_by
  rename_i peek _ _ next
  obtain ⟨_, rest, read, items⟩ := Peekable.tryPeek_some peek
  obtain ⟨_, rfl⟩ := Prod.mk.inj (next.symm.trans read)
  simp [items]

/-- What a line does to the peer whose block it may belong to; nothing if the block ends before it. -/
def blockLine (publicKeyLine line : Line) (peer : P) : Exec (Except ParseError (Option P)) :=
  if line.isEmpty || startsWith line "public_key" then return .ok none
  else match splitOnce 61 line with
    | (_, none) => return .error (invalidLine publicKeyLine)
    | (k, some v) => f.applyPeer k v peer

/-- The same loop over the lines themselves. -/
def readBlock (publicKeyLine : Line) : List Item → P → Exec (Except ParseError (P × List Item))
  | [], _ => return .error endOfStream
  | .error e :: _, _ => return .error (.io e)
  | .ok line :: rest, peer => do
    match ← f.blockLine publicKeyLine line peer with
    | .error e => return .error e
    | .ok none => return .ok (peer, .ok line :: rest)
    | .ok (some peer) => readBlock publicKeyLine rest peer

/-- What a parser returns, with the lines it leaves if it succeeds. -/
def outcome (x : Except ParseError α × Peekable) : Except ParseError (α × List Item) :=
  x.1.map (·, x.2.items)

/-- Peeking at lines first is reading them: no line is unwrapped that is not there. -/
theorem peerLoop_eq (publicKeyLine : Line) (s : Peekable) (peer : P) :
    outcome <$> f.peerLoop publicKeyLine s peer = f.readBlock publicKeyLine s.items peer := by
  induction items : s.items generalizing s peer with
  | nil =>
    rw [peerLoop, Peekable.tryPeek_nil items]
    rfl
  | cons item rest ih =>
    cases item with
    | error e =>
      obtain ⟨next, read, _⟩ := Peekable.tryPeek_error items
      rw [peerLoop, read]
      rfl
    | ok line =>
      obtain ⟨next, read⟩ := Peekable.tryPeek_ok items
      obtain ⟨nextItems, last, readNext, lastItems⟩ := Peekable.tryPeek_some read
      rw [items] at nextItems lastItems
      obtain ⟨_, lastItems⟩ := List.cons.inj lastItems
      rw [peerLoop, read, readBlock, blockLine]
      dsimp only
      split_ifs with done
      · simp [outcome, Except.map, nextItems]
      · obtain ⟨k, value⟩ := splitOnce 61 line
        cases value with
        | none => rfl
        | some v =>
          dsimp only
          cases f.applyPeer k v peer with
          | error panic => rfl
          | ok result =>
            rcases result with e | _ | peer
            · rfl
            · simp [outcome, Except.map, nextItems]
            · simp only [ok_bind]
              rw [readNext]
              exact ih last peer lastItems.symm

/-- `parse_peer`. -/
def parsePeer (s : Peekable) : Exec (Except ParseError P × Peekable) :=
  match s.tryNext with
  | (.error e, s) => return (.error (.io e), s)
  | (.ok none, s) => return (.error endOfStream, s)
  | (.ok (some line), s) =>
    match parsePublicKey line with
    | .error e => return (.error e, s)
    | .ok publicKey => f.peerLoop line s (f.newPeer publicKey)

theorem readBlock_length {items rest : List Item} {p peer : P}
    (read : f.readBlock publicKeyLine items p = .ok (.ok (peer, rest))) : rest.length ≤ items.length := by
  induction items generalizing p with
  | nil => cases read
  | cons item items ih =>
    cases item with
    | error e => cases read
    | ok line =>
      obtain ⟨result, _, read⟩ := bind_eq_ok.mp read
      rcases result with e | _ | p
      · cases read
      · obtain ⟨_, rfl⟩ := Prod.mk.inj (Except.ok.inj (Except.ok.inj read))
        exact le_rfl
      · exact (ih read).trans (Nat.le_succ _)

theorem parsePeer_cons {s : Peekable} (items : s.items = .ok line :: rest) :
    outcome <$> f.parsePeer s = match parsePublicKey line with
      | .error e => return .error e
      | .ok publicKey => f.readBlock line rest (f.newPeer publicKey) := by
  rw [parsePeer, Peekable.tryNext_cons items]
  simp only [Except.map]
  cases parsePublicKey line with
  | error e => rfl
  | ok publicKey => exact f.peerLoop_eq line ⟨rest, none⟩ (f.newPeer publicKey)

theorem parsePeer_length {s next : Peekable} {peer : P} (parsed : f.parsePeer s = .ok (.ok peer, next)) :
    next.items.length < s.items.length := by
  cases items : s.items with
  | nil =>
    rw [parsePeer, Peekable.tryNext_nil items] at parsed
    cases parsed
  | cons item rest =>
    cases item with
    | error e =>
      rw [parsePeer, Peekable.tryNext_cons items] at parsed
      cases parsed
    | ok line =>
      have read := f.parsePeer_cons items
      rw [parsed] at read
      cases parsedKey : parsePublicKey line with
      | error e =>
        rw [parsedKey] at read
        cases read
      | ok publicKey =>
        rw [parsedKey] at read
        exact Nat.lt_succ_of_le (f.readBlock_length read.symm)

/-- The loop over the peers. -/
def peersLoop (s : Peekable) (command : C) : Exec (Except ParseError C × Peekable) :=
  match _ : f.parsePeer s with
  | .error panic => .error panic
  | .ok (.error e, s) => return (.error e, s)
  | .ok (.ok peer, s) =>
    let command := f.push command peer
    match _ : s.tryPeek with
    | (.error e, s) => return (.error (.io e), s)
    | (.ok none, s) => return (.error endOfStream, s)
    | (.ok (some line), s) => if f.ends line then return (.ok command, s) else peersLoop s command
termination_by s.items.length
decreasing_by
  rename_i parsed peek _
  rw [(Peekable.tryPeek_some peek).1]
  exact f.parsePeer_length parsed

/-- `parse_set_command` and `parse_wg_state_out`. -/
def parseSections (s : Peekable) (command : C) : Exec (Except ParseError C × Peekable) :=
  match _ : s.tryPeek with
  | (.error e, s) => return (.error (.io e), s)
  | (.ok none, s) => return (.error endOfStream, s)
  | (.ok (some line), s) =>
    if line.isEmpty then do
      let (result, s) := s.tryNext
      let _ ← unwrapResult result
      return (.ok command, s)
    else if startsWith line "public_key" then f.peersLoop s command
    else
      match _ : s.tryNext with
      | (.error _, _) => .error .unwrapNone
      | (.ok none, _) => .error .unwrapNone
      | (.ok (some line), s) =>
        match splitOnce 61 line with
        | (_, none) => return (.error (invalidLine line), s)
        | (key, some value) =>
          match f.applyInterface key value command with
          | .error e => return (.error e, s)
          | .ok none => return (.ok command, s)
          | .ok (some command) => parseSections s command
termination_by s.items.length
decreasing_by
  rename_i peek _ _ next
  obtain ⟨_, rest, read, items⟩ := Peekable.tryPeek_some peek
  obtain ⟨_, rfl⟩ := Prod.mk.inj (next.symm.trans read)
  simp [items]

/-- The blocks of all peers in one pass. `peer` is the one whose block is being read. -/
def readPeers (publicKeyLine : Line) : List Item → C → P → Exec (Except ParseError (C × List Item))
  | [], _, _ => return .error endOfStream
  | .error e :: _, _, _ => return .error (.io e)
  | .ok line :: rest, command, peer => do
    match ← f.blockLine publicKeyLine line peer with
    | .error e => return .error e
    | .ok (some peer) => readPeers publicKeyLine rest command peer
    | .ok none =>
      if f.ends line then return .ok (f.push command peer, .ok line :: rest)
      else match parsePublicKey line with
        | .error e => return .error e
        | .ok publicKey => readPeers line rest (f.push command peer) (f.newPeer publicKey)

def readSections : List Item → C → Exec (Except ParseError (C × List Item))
  | [], _ => return .error endOfStream
  | .error e :: _, _ => return .error (.io e)
  | .ok line :: rest, command =>
    if line.isEmpty then return .ok (command, rest)
    else if startsWith line "public_key" then
      match parsePublicKey line with
      | .error e => return .error e
      | .ok publicKey => f.readPeers line rest command (f.newPeer publicKey)
    else match splitOnce 61 line with
      | (_, none) => return .error (invalidLine line)
      | (key, some value) =>
        match f.applyInterface key value command with
        | .error e => return .error e
        | .ok none => return .ok (command, rest)
        | .ok (some command) => readSections rest command

def afterBlock : List Item → C → Exec (Except ParseError (C × List Item))
  | [], _ => return .error endOfStream
  | .error e :: _, _ => return .error (.io e)
  | .ok line :: rest, command =>
    if f.ends line then return .ok (command, .ok line :: rest)
    else match parsePublicKey line with
      | .error e => return .error e
      | .ok publicKey => f.readPeers line rest command (f.newPeer publicKey)

theorem readPeers_eq (publicKeyLine : Line) (items : List Item) (command : C) (peer : P) :
    f.readPeers publicKeyLine items command peer = (do
      match ← f.readBlock publicKeyLine items peer with
      | .error e => return .error e
      | .ok (peer, rest) => f.afterBlock rest (f.push command peer)) := by
  induction items generalizing peer with
  | nil => rfl
  | cons item rest ih =>
    cases item with
    | error e => rfl
    | ok line =>
      rw [readPeers, readBlock]
      cases f.blockLine publicKeyLine line peer with
      | error panic => rfl
      | ok result =>
        rcases result with e | _ | peer
        · rfl
        · rfl
        · exact ih peer

/-- The nested loops make one pass over the blocks. -/
theorem peersLoop_eq (s : Peekable) (command : C) (items : s.items = .ok line :: rest) :
    outcome <$> f.peersLoop s command = match parsePublicKey line with
      | .error e => return .error e
      | .ok publicKey => f.readPeers line rest command (f.newPeer publicKey) := by
  induction length : s.items.length using Nat.strong_induction_on generalizing s command line rest with
  | _ n ih =>
    have first := f.parsePeer_cons items
    cases parsed : f.parsePeer s with
    | error panic =>
      rw [peersLoop, parsed]
      rw [parsed] at first
      cases parsedKey : parsePublicKey line with
      | error e =>
        rw [parsedKey] at first
        cases first
      | ok publicKey =>
        rw [parsedKey] at first
        dsimp only at first ⊢
        rw [readPeers_eq, ← first]
        rfl
    | ok result =>
      obtain ⟨result, next⟩ := result
      rw [peersLoop, parsed]
      rw [parsed] at first
      cases parsedKey : parsePublicKey line with
      | error e =>
        rw [parsedKey] at first
        cases result with
        | error e' =>
          obtain rfl := Except.error.inj (Except.ok.inj first)
          rfl
        | ok peer => cases first
      | ok publicKey =>
        rw [parsedKey] at first
        dsimp only at first ⊢
        rw [readPeers_eq, ← first]
        cases result with
        | error e => rfl
        | ok peer =>
          have shorter := f.parsePeer_length parsed
          cases nextItems : next.items with
          | nil =>
            dsimp only
            rw [Peekable.tryPeek_nil nextItems]
            simp [outcome, Except.map, nextItems, afterBlock]
          | cons item rest =>
            cases item with
            | error e =>
              obtain ⟨last, read, _⟩ := Peekable.tryPeek_error nextItems
              dsimp only
              rw [read]
              simp [outcome, Except.map, nextItems, afterBlock]
            | ok nextLine =>
              obtain ⟨last, read⟩ := Peekable.tryPeek_ok nextItems
              have lastItems := (Peekable.tryPeek_some read).1.trans nextItems
              dsimp only
              rw [read]
              simp only [outcome, Except.map, nextItems, afterBlock, map_ok, ok_bind]
              split_ifs with ends
              · simp [outcome, Except.map, lastItems]
              · exact ih last.items.length (by rw [← length, lastItems, ← nextItems]; exact shorter) last _
                  lastItems rfl

theorem parseSections_eq (s : Peekable) (command : C) :
    outcome <$> f.parseSections s command = f.readSections s.items command := by
  induction items : s.items generalizing s command with
  | nil =>
    rw [parseSections, Peekable.tryPeek_nil items]
    rfl
  | cons item rest ih =>
    cases item with
    | error e =>
      obtain ⟨next, read, _⟩ := Peekable.tryPeek_error items
      rw [parseSections, read]
      rfl
    | ok line =>
      obtain ⟨next, read⟩ := Peekable.tryPeek_ok items
      obtain ⟨nextItems, last, readNext, lastItems⟩ := Peekable.tryPeek_some read
      rw [items] at nextItems lastItems
      obtain ⟨_, lastItems⟩ := List.cons.inj lastItems
      rw [parseSections, read, readSections]
      dsimp only
      split_ifs with done block
      · rw [readNext]
        simp [unwrapResult, outcome, Except.map, lastItems]
      · exact f.peersLoop_eq next command nextItems
      · rw [readNext]
        dsimp only
        obtain ⟨key, value⟩ := splitOnce 61 line
        cases value with
        | none => rfl
        | some value =>
          dsimp only
          rcases f.applyInterface key value command with e | _ | command
          · rfl
          · simp [outcome, Except.map, lastItems]
          · exact ih last command lastItems.symm

end Format

section Requests

variable (t : AddrText)

def WgSetPeerCommand.new (publicKey : X25519Pubkey) : WgSetPeerCommand where
  publicKey
  remove := false
  presharedKey := none
  endpoint := none
  persistentKeepaliveInterval := none
  replaceAllowedIps := false
  allowedIps := ∅

def WgSetCommand.new : WgSetCommand where
  privateKey := none
  fwmark := none
  listenPort := none
  replacePeers := false
  peers := []

/-- The keys of `parse_peer`. -/
def WgSetPeerCommand.apply (k v : Line) (peer : WgSetPeerCommand) :
    Except ParseError (Option WgSetPeerCommand) :=
  if k = lit "remove" then do
    let remove ← parseBool v
    return some { peer with remove }
  else if k = lit "preshared_key" then do
    let presharedKey ← decodeKey v "Invalid length for preshared key"
    return some { peer with presharedKey := some presharedKey }
  else if k = lit "endpoint" then do
    let endpoint ← decodeAddress (t.parseSocket v)
    return some { peer with endpoint := some endpoint }
  else if k = lit "persistent_keepalive_interval" then do
    let interval ← parseUInt 16 v
    return some { peer with persistentKeepaliveInterval := some interval }
  else if k = lit "replace_allowed_ips" then do
    let replaceAllowedIps ← parseBool v
    return some { peer with replaceAllowedIps }
  else if k = lit "allowed_ip" then do
    let ip ← parseAllowedIp t v
    return some { peer with allowedIps := insert ip peer.allowedIps }
  else return none

/-- The keys of `parse_set_command`. -/
def WgSetCommand.apply (key value : Line) (command : WgSetCommand) :
    Except ParseError (Option WgSetCommand) :=
  if key = lit "private_key" then do
    let privateKey ← decodeKey value "Invalid length for private_key"
    return some { command with privateKey := some privateKey }
  else if key = lit "fwmark" then do
    let fwmark ← parseUInt 32 value
    return some { command with fwmark := some fwmark }
  else if key = lit "listen_port" then do
    let listenPort ← parseUInt 16 value
    return some { command with listenPort := some listenPort }
  else if key = lit "replace_peers" then do
    let replacePeers ← parseBool value
    return some { command with replacePeers }
  else throw (.bail (lit "Unexpected key: " ++ key))

def setFormat : Format WgSetCommand WgSetPeerCommand where
  newPeer := .new
  applyPeer k v peer := return peer.apply t k v
  applyInterface k v command := command.apply k v
  push command peer := { command with peers := command.peers ++ [peer] }
  ends := List.isEmpty

inductive WgIpcCommand where
  | get
  | set (command : WgSetCommand)

def parseCommand (stream : List Item) : Exec (Except ParseError (Option WgIpcCommand)) :=
  match (Peekable.new stream).tryNext with
  | (.error e, _) => return .error (.io e)
  | (.ok none, _) => return .ok none
  | (.ok (some firstLine), s) =>
    if firstLine = lit "get=1" then
      match s.tryNext with
      | (.error e, _) => return .error (.io e)
      | (.ok none, _) => return .error endOfStream
      | (.ok (some emptyLine), _) =>
        if emptyLine ≠ [] then return .error (.bail (lit "Expected empty line, got " ++ emptyLine))
        else return .ok (some .get)
    else if firstLine = lit "set=1" then do
      let (result, _) ← (setFormat t).parseSections s .new
      return result.map fun command => some (.set command)
    else return .error (.bail (lit "Unexpected command " ++ firstLine))

/-- `codec` splits a stream of bytes into lines up to a length. -/
def parseCommandIo (codec : Nat → Bytes → List Item) (stream : Bytes) :
    Exec (Except ParseError (Option WgIpcCommand)) :=
  parseCommand t (codec 128 stream)

end Requests

section Responses

variable (t : AddrText)

def PeerStateOut.new (publicKey : X25519Pubkey) : PeerStateOut where
  publicKey
  presharedKey := none
  endpoint := none
  persistentKeepaliveInterval := 0
  allowedIps := ∅
  lastHandshakeTime := none
  rxBytes := 0
  txBytes := 0

def WgStateOut.new : WgStateOut where
  privateKey := zeros 32
  peers := []
  listenPort := 0
  fwmark := 0

/-- `+` of a system time and a duration, which panics where seconds overflow `i64`. -/
def addDuration (time : SystemTime) (nanos : Nat) : Exec SystemTime :=
  if time + nanos < 2 ^ 63 * NANOS_PER_SEC then .ok (time + nanos) else .error .unwrapNone

/-- The keys of `parse_peer_state_out`. -/
def PeerStateOut.apply (k v : Line) (peer : PeerStateOut) : Exec (Except ParseError (Option PeerStateOut)) :=
  if k = lit "last_handshake_time_sec" then
    match parseUInt 64 v with
    | .error e => return .error e
    | .ok sec => do
      let time ← addDuration 0 (secs sec.toNat)
      return .ok (some { peer with lastHandshakeTime := some time })
  else if k = lit "last_handshake_time_nsec" then
    match parseUInt 64 v with
    | .error e => return .error e
    | .ok usec =>
      match peer.lastHandshakeTime with
      | none => return .error (.bail (lit "Get last_handshake_time_nsec but no last_handshake_time_sec"))
      | some time => do
        let time ← addDuration time usec.toNat
        return .ok (some { peer with lastHandshakeTime := some time })
  else return show Except ParseError (Option PeerStateOut) from
    if k = lit "rx_bytes" then do
      let rxBytes ← parseUInt 64 v
      return some { peer with rxBytes }
    else if k = lit "tx_bytes" then do
      let txBytes ← parseUInt 64 v
      return some { peer with txBytes }
    else if k = lit "preshared_key" then do
      let presharedKey ← decodeKey v "Invalid length for preshared key"
      return some { peer with presharedKey := some presharedKey }
    else if k = lit "endpoint" then do
      let endpoint ← decodeAddress (t.parseSocket v)
      return some { peer with endpoint := some endpoint }
    else if k = lit "persistent_keepalive_interval" then do
      let interval ← parseUInt 16 v
      return some { peer with persistentKeepaliveInterval := interval }
    else if k = lit "allowed_ip" then do
      let ip ← parseAllowedIp t v
      return some { peer with allowedIps := insert ip peer.allowedIps }
    else return none

/-- The keys of `parse_wg_state_out`. The last two end it. -/
def WgStateOut.apply (key value : Line) (state : WgStateOut) : Except ParseError (Option WgStateOut) :=
  if key = lit "private_key" then do
    let privateKey ← decodeKey value "Invalid length for private_key"
    return some { state with privateKey }
  else if key = lit "fwmark" then do
    let fwmark ← parseUInt 32 value
    return some { state with fwmark }
  else if key = lit "listen_port" then do
    let listenPort ← parseUInt 16 value
    return some { state with listenPort }
  else if key = lit "errno" then return none
  else if key = lit "protocol_version" then return none
  else throw (.bail (lit "Unexpected key: " ++ key))

def stateFormat : Format WgStateOut PeerStateOut where
  newPeer := .new
  applyPeer k v peer := peer.apply t k v
  applyInterface k v state := state.apply k v
  push state peer := { state with peers := state.peers ++ [peer] }
  ends line := !startsWith line "public_key"

/-- A response is a state or an error number. -/
def parseGetResponse (stream : List Item) : Exec (Except ParseError (Except Int WgStateOut)) :=
  match (Peekable.new stream).tryPeek with
  | (.error e, _) => return .error (.io e)
  | (.ok none, _) => return .error (.bail (lit "Empty response"))
  | (.ok (some firstLine), s) =>
    if startsWith firstLine "errno=" then
      match splitOnce 61 firstLine with
      | (_, none) => return .error (invalidLine firstLine)
      | (_, some v) => return (parseInt32 v).map .error
    else do
      let (result, _) ← (stateFormat t).parseSections s .new
      return result.map .ok

def parseGetResponseIo (codec : Nat → Bytes → List Item) (stream : Bytes) :
    Exec (Except ParseError (Except Int WgStateOut)) :=
  parseGetResponse t (codec 128 stream)

end Responses

def noAddresses : AddrText where
  ip _ := []
  parseIp _ := none
  socket _ := []
  parseSocket _ := none

def decodeLines (limit : Nat) : Line → Bytes → List Item
  | line, [] =>
    if line = [] then [] else if limit < line.length then [.error "max line length exceeded"] else [.ok line]
  | line, b :: rest =>
    if b = 10 then
      (if limit < line.length then .error "max line length exceeded" else .ok line) :: decodeLines limit [] rest
    else decodeLines limit (line ++ [b]) rest

def sampleCodec (limit : Nat) (stream : Bytes) : List Item := decodeLines limit [] stream

end Titun
