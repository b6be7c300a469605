import FilePeeker.Lib.Dialogue

/-!
# Through the proxy of the SSH process

`connect_socks5` of the old `client/connection/ssh.rs`: what a client says to the SOCKS5 proxy
that its SSH process is, before the stream is a server's.  `Grant` is an answer that grants the
request, in the three forms an address can have.

The client takes the stream for connected exactly if the proxy takes its method and then grants
(`connects_iff`), and has then read no byte behind the answer: those are the server's.
-/

namespace FilePeeker.Connections.Socks

/-- Why a stream is not connected: the proxy left off, or said no, or what is no answer. -/
inductive SocksError
  | earlyEof
  | negotiation
  | version
  | refused (status : UInt8)
  | addressType (addressType : UInt8)
deriving DecidableEq, Repr

def SocksError.message : SocksError → String
  | earlyEof => "early eof"
  | negotiation => "SSH proxy rejected SOCKS5 negotiation"
  | version => "SSH proxy returned an invalid SOCKS version"
  | refused status => "SSH proxy rejected the server connection with status " ++ toString status
  | addressType kind => "SSH proxy returned unknown SOCKS5 address type " ++ toString kind

/-- How far `connect_socks5` is. -/
inductive Place
  | greet
  | greeting
  | request
  | response
  | length
  /-- At the bound address, of so many bytes, and its port. -/
  | bound (addressBytes : Nat)
  | ended (result : Except SocksError Unit)
deriving DecidableEq

def eof (_ : Bytes) : Place := .ended (.error .earlyEof)

/-- `u16::to_be_bytes`. -/
def toBeBytes (port : UInt16) : Bytes := [(port >>> 8).toUInt8, port.toUInt8]

def afterGreeting (greeting : Bytes) : Place :=
  if greeting = [5, 0] then .request else .ended (.error .negotiation)

def afterResponse : Bytes → Place
  | [version, status, _, addressType] =>
    if version ≠ 5 then .ended (.error .version)
    else if status ≠ 0 then .ended (.error (.refused status))
    else if addressType = 1 then .bound 4
    else if addressType = 3 then .length
    else if addressType = 4 then .bound 16
    else .ended (.error (.addressType addressType))
  -- Four bytes were read.
  | _ => .ended (.error .earlyEof)

/-- `usize::from(length[0])`. -/
def afterLength (length : Bytes) : Place := .bound (length.headD 0).toNat

/-- `connect_socks5`. -/
def connectSocks5 (serverPort : UInt16) : Place → Command Place (Except SocksError Unit)
  | .greet => .write [5, 1, 0] .greeting
  | .greeting => .read (.exactly 2) afterGreeting eof
  | .request => .write ([5, 1, 0, 1, 127, 0, 0, 1] ++ toBeBytes serverPort) .response
  | .response => .read (.exactly 4) afterResponse eof
  | .length => .read (.exactly 1) afterLength eof
  | .bound addressBytes => .read (.exactly (addressBytes + 2)) (fun _ => .ended (.ok ())) eof
  | .ended result => .done result

/-! ### What a proxy answers -/

/-- An address as an answer has it. -/
inductive Address
  | ipv4 (octets : Bytes) (h : octets.length = 4)
  | domain (name : Bytes) (h : name.length < 256)
  | ipv6 (octets : Bytes) (h : octets.length = 16)

def Address.encode : Address → Bytes
  | ipv4 octets _ => 1 :: octets
  | domain name _ => 3 :: name.length.toUInt8 :: name
  | ipv6 octets _ => 4 :: octets

/-- The answer of a proxy that has connected, from this address. -/
structure Grant where
  reserved : UInt8
  address : Address
  port : Bytes
  two : port.length = 2

def Grant.encode (grant : Grant) : Bytes :=
  5 :: 0 :: grant.reserved :: (grant.address.encode ++ grant.port)

/-- What a client writes that is granted its request. -/
def spoken (serverPort : UInt16) : Bytes :=
  [5, 1, 0] ++ ([5, 1, 0, 1, 127, 0, 0, 1] ++ toBeBytes serverPort)

variable {port : UInt16} {closes : Bool} {input w rest : Bytes} {n : Nat}
  {r : Except SocksError Unit} {addressBytes : Nat} {p : Place}

open Dialogue

/-! ### What is read -/

theorem gives_ended : Gives (connectSocks5 port) closes (.ended r) input [] r input 0 :=
  .done rfl

/-- Too little was there. -/
theorem gives_eof (h : Gives (connectSocks5 port) closes (eof input) [] w r rest n) :
    r = .error .earlyEof := by
  cases h with
  | done hc => cases hc; rfl
  | write hc _ => cases hc
  | read hc _ _ => cases hc
  | eof hc _ _ _ => cases hc

theorem ended_inv {r' : Except SocksError Unit}
    (h : Gives (connectSocks5 port) closes (.ended r') input w r rest n) :
    r = r' ∧ w = [] ∧ rest = input := by
  cases h with
  | done hc => cases hc; exact ⟨rfl, rfl, rfl⟩
  | write hc _ => cases hc
  | read hc _ _ => cases hc
  | eof hc _ _ _ => cases hc

/-- A read the program gets over, where the result is no error of an early end. -/
theorem read_inv {count : Nat} {next : Bytes → Place}
    (hc : connectSocks5 port p = .read (.exactly count) next eof)
    (h : Gives (connectSocks5 port) closes p input w (.ok ()) rest n) :
    ∃ text left m, text.length = count ∧ input = text ++ left ∧
      Gives (connectSocks5 port) closes (next text) left w (.ok ()) rest m := by
  cases h with
  | done hc' => rw [hc] at hc'; cases hc'
  | write hc' _ => rw [hc] at hc'; cases hc'
  | read hc' hcut hnext =>
    rw [hc] at hc'
    cases hc'
    obtain ⟨heq, hlen⟩ := Frame.cut_exactly_eq_some hcut
    exact ⟨_, _, _, hlen, heq, hnext⟩
  | eof hc' _ _ hnext =>
    rw [hc] at hc'
    cases hc'
    cases gives_eof hnext

theorem write_inv {text : Bytes} {next : Place} (hc : connectSocks5 port p = .write text next)
    (h : Gives (connectSocks5 port) closes p input w r rest n) :
    ∃ written m, w = text ++ written ∧
      Gives (connectSocks5 port) closes next input written r rest m := by
  cases h with
  | done hc' => rw [hc] at hc'; cases hc'
  | write hc' hnext => rw [hc] at hc'; cases hc'; exact ⟨_, _, rfl, hnext⟩
  | read hc' _ _ => rw [hc] at hc'; cases hc'
  | eof hc' _ _ _ => rw [hc] at hc'; cases hc'

theorem bound_inv
    (h : Gives (connectSocks5 port) closes (.bound addressBytes) input w (.ok ()) rest n) :
    w = [] ∧ ∃ octets portBytes, octets.length = addressBytes ∧ portBytes.length = 2 ∧
      input = octets ++ portBytes ++ rest := by
  obtain ⟨text, left, m, hlen, heq, hnext⟩ := read_inv rfl h
  obtain ⟨-, hw, hrest⟩ := ended_inv hnext
  refine ⟨hw, text.take addressBytes, text.drop addressBytes, ?_, ?_, ?_⟩
  · rw [List.length_take, hlen]
    omega
  · rw [List.length_drop, hlen]
    omega
  · rw [List.take_append_drop, heq, hrest]

theorem gives_bound {octets portBytes : Bytes} (hport : portBytes.length = 2) (rest : Bytes) :
    Gives (connectSocks5 port) closes (.bound octets.length) (octets ++ portBytes ++ rest) []
      (.ok ()) rest 1 :=
  .read rfl (Frame.cut_exactly (by rw [List.length_append, hport])) gives_ended

/-- What the answer says of the bound address. -/
theorem address_inv {version status reserved kind : UInt8}
    (h : Gives (connectSocks5 port) closes (afterResponse [version, status, reserved, kind]) input
      w (.ok ()) rest n) :
    version = 5 ∧ status = 0 ∧ w = [] ∧ ∃ address : Address, ∃ portBytes : Bytes,
      portBytes.length = 2 ∧ kind :: input = address.encode ++ portBytes ++ rest := by
  simp only [afterResponse] at h
  split at h
  · cases (ended_inv h).1
  · rename_i hversion
    split at h
    · cases (ended_inv h).1
    · rename_i hstatus
      refine ⟨by simpa using hversion, by simpa using hstatus, ?_⟩
      split at h
      · rename_i hkind
        obtain ⟨hw, octets, portBytes, hlen, hport, rfl⟩ := bound_inv h
        exact ⟨hw, .ipv4 octets hlen, portBytes, hport, by simp [Address.encode, hkind]⟩
      · split at h
        · rename_i hkind
          obtain ⟨text, left, m, hone, rfl, hnext⟩ := read_inv rfl h
          obtain ⟨size, rfl⟩ := List.length_eq_one_iff.mp hone
          obtain ⟨hw, name, portBytes, hlen, hport, rfl⟩ := bound_inv hnext
          have hsize : name.length = size.toNat := hlen
          refine ⟨hw, .domain name ?_, portBytes, hport, ?_⟩
          · rw [hsize]
            exact size.toNat_lt
          · simp [Address.encode, hkind, hsize]
        · split at h
          · rename_i hkind
            obtain ⟨hw, octets, portBytes, hlen, hport, rfl⟩ := bound_inv h
            exact ⟨hw, .ipv6 octets hlen, portBytes, hport, by simp [Address.encode, hkind]⟩
          · cases (ended_inv h).1

theorem gives_response {reserved kind : UInt8}
    (h : Gives (connectSocks5 port) closes (afterResponse [5, 0, reserved, kind]) input [] r rest
      n) :
    Gives (connectSocks5 port) closes .response (5 :: 0 :: reserved :: kind :: input) [] r rest
      (n + 1) := by
  have hcut : Frame.cut (.exactly 4) (5 :: 0 :: reserved :: kind :: input) =
      some ([5, 0, reserved, kind], input) := by simp [Frame.cut]
  exact .read rfl hcut h

/-- The length of a name is one byte. -/
theorem gives_length {name : Bytes} (hname : name.length < 256)
    (h : Gives (connectSocks5 port) closes (.bound name.length) input [] r rest n) :
    Gives (connectSocks5 port) closes .length (name.length.toUInt8 :: input) [] r rest
      (n + 1) := by
  have hcut : Frame.cut (.exactly 1) (name.length.toUInt8 :: input) =
      some ([name.length.toUInt8], input) := by simp [Frame.cut]
  have hsize : afterLength [name.length.toUInt8] = .bound name.length := by
    simp [afterLength, Nat.mod_eq_of_lt hname]
  exact .read rfl hcut (hsize ▸ h)

theorem gives_grant (grant : Grant) (rest : Bytes) :
    ∃ n, Gives (connectSocks5 port) closes .response (grant.encode ++ rest) [] (.ok ()) rest n := by
  obtain ⟨reserved, address, portBytes, hport⟩ := grant
  cases address with
  | ipv4 octets h =>
    exact ⟨_, gives_response (h ▸ gives_bound hport rest)⟩
  | domain name h =>
    exact ⟨_, gives_response (gives_length h (gives_bound hport rest))⟩
  | ipv6 octets h =>
    exact ⟨_, gives_response (h ▸ gives_bound hport rest)⟩

/-- **A stream is connected exactly if the proxy granted it**, however its answer arrives:
then the request was for the server's port on the loopback address of the remote host, and
all that is left on the stream is what came behind the answer. -/
theorem connects_iff (port : UInt16) (closes : Bool) (input w rest : Bytes) :
    AlwaysEnds (connectSocks5 port) closes .greet input w (.ok ()) rest ↔
      w = spoken port ∧ ∃ grant : Grant, input = [5, 0] ++ (grant.encode ++ rest) := by
  rw [alwaysEnds_iff]
  constructor
  · rintro ⟨n, h⟩
    obtain ⟨_, _, rfl, hgreeting⟩ := write_inv rfl h
    obtain ⟨greeting, left, _, -, rfl, hafter⟩ := read_inv rfl hgreeting
    simp only [afterGreeting] at hafter
    split at hafter
    · rename_i heq
      subst heq
      obtain ⟨_, _, rfl, hresponse⟩ := write_inv rfl hafter
      obtain ⟨response, left', _, hfour, rfl, haddress⟩ := read_inv rfl hresponse
      match response, hfour with
      | [version, status, reserved, kind], _ =>
        obtain ⟨rfl, rfl, rfl, address, portBytes, hport, heq⟩ := address_inv haddress
        refine ⟨rfl, ⟨reserved, address, portBytes, hport⟩, ?_⟩
        simpa [Grant.encode] using heq
    · cases (ended_inv hafter).1
  · rintro ⟨rfl, grant, rfl⟩
    obtain ⟨n, hgrant⟩ := gives_grant grant rest
    have hrequest : Gives (connectSocks5 port) closes (afterGreeting [5, 0])
        (grant.encode ++ rest) ([5, 1, 0, 1, 127, 0, 0, 1] ++ toBeBytes port ++ []) (.ok ()) rest
        (n + 1) := .write rfl hgrant
    have hgreeting := Gives.read (s := Place.greeting) rfl
      (Frame.cut_exactly (n := 2) rfl) hrequest
    have hgreet : Gives (connectSocks5 port) closes .greet ([5, 0] ++ (grant.encode ++ rest))
        ([5, 1, 0] ++ ([5, 1, 0, 1, 127, 0, 0, 1] ++ toBeBytes port ++ [])) (.ok ()) rest
        (n + 1 + 1 + 1) := .write rfl hgreeting
    rw [List.append_nil] at hgreet
    exact ⟨_, hgreet⟩

end FilePeeker.Connections.Socks
