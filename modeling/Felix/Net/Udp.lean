import Felix.Base.Runs

/-!
# One UDP socket

`bind`, `connect`, `recvfrom` and `sendto` of `kernel/src/syscalls/handler.rs` on a
datagram socket.  The kernel keeps an entry for the socket, with the local and the peer
address, and smoltcp keeps the socket itself.  smoltcp is a parameter: a type of states
of its socket with the operations that the calls use, of which nothing is known but what
`Smoltcp.Lawful` says of `bind`.

What the network and the other tasks decide is part of an operation: whether the lock of
the network stack is free, and what the network does to the socket between two calls.
The payload that is sent or received is copied as it is and is left out, except for its
length.
-/

namespace Felix.Udp

inductive IpAddress where
  | ipv4 (bits : UInt32)
  | ipv6
  deriving DecidableEq

structure IpEndpoint where
  addr : IpAddress
  port : UInt16
  deriving DecidableEq

structure IpListenEndpoint where
  addr : Option UInt32
  port : UInt16
  deriving DecidableEq

/-- `sin_port` is in network byte order. -/
structure SockAddrIn where
  sinFamily : UInt16
  sinPort : UInt16
  sinAddr : UInt32
  deriving DecidableEq

def afInet : UInt16 := 2

def sizeOfSockAddrIn : Nat := 16

/-- `to_be` and `from_be` of a 16-bit word. -/
def swapBytes (w : UInt16) : UInt16 := .ofNat (w.toNat % 256 * 256 + w.toNat / 256)

/-- The endpoint that an address stands for. -/
def SockAddrIn.endpoint (a : SockAddrIn) : IpEndpoint := ⟨.ipv4 a.sinAddr, swapBytes a.sinPort⟩

def endpointToSockaddr (e : IpEndpoint) : Option SockAddrIn :=
  match e.addr with
  | .ipv4 bits => some ⟨afInet, swapBytes e.port, bits⟩
  | .ipv6 => none

/-! ## smoltcp -/

/-- What `recv_slice` answers, when `can_recv` has said that a datagram is there. -/
inductive Received where
  | datagram (size : Nat) (source : IpEndpoint)
  | truncated
  | exhausted

/-- The operations of `udp::Socket`, on states `σ` of the socket, and what an event `ε` of the
network does to it.  An operation that is refused leaves the socket as it was. -/
structure Smoltcp (σ ε : Type) where
  isOpen : σ → Bool
  endpoint : σ → IpListenEndpoint
  bind : σ → IpListenEndpoint → Option σ
  sendSlice : σ → Nat → IpEndpoint → Option σ
  canRecv : σ → Bool
  recvSlice : σ → Nat → Received × σ
  poll : σ → ε → σ

variable {σ ε : Type}

/-- `bind` refuses an open socket, and opens a closed one at any port but 0. -/
structure Smoltcp.Lawful (smol : Smoltcp σ ε) : Prop where
  bind_open : ∀ s endpoint, smol.isOpen s = true → smol.bind s endpoint = none
  bind_closed : ∀ s endpoint, smol.isOpen s = false → endpoint.port ≠ 0 →
    (smol.bind s endpoint).isSome

/-! ## The calls -/

/-- The states that a datagram socket can have in the socket table. -/
inductive SocketState where
  | created
  | bound
  | connected
  deriving DecidableEq

/-- The socket in smoltcp, its entry in the socket table, and the counter for ephemeral ports. -/
structure Socket (σ : Type) where
  udp : σ
  localAddr : Option SockAddrIn
  peerAddr : Option SockAddrIn
  state : SocketState
  nextEphemeralPort : UInt32

/-- How a call ends, `restart` being `BLOCK_AND_RESTART`. -/
inductive Ret where
  | ok (n : Nat)
  | efault
  | einval
  | eagain
  | failed
  | restart
  deriving DecidableEq

/-- The result of a call, where a datagram was sent, and whence one was received. -/
structure Result where
  ret : Ret
  sent : Option IpEndpoint
  received : Option IpEndpoint

def Result.of (ret : Ret) : Result := ⟨ret, none, none⟩

def allocEphemeralPort (counter : UInt32) : UInt16 × UInt32 :=
  (.ofNat (49152 + counter.toNat % 16384), counter + 1)

section

variable (smol : Smoltcp σ ε)

def sysBind (lock : Bool) (s : Socket σ) (addr : SockAddrIn) (addrlen : Nat) :
    Result × Socket σ :=
  if addrlen < sizeOfSockAddrIn then (.of .failed, s)
  else if !lock then (.of .restart, s)
  else
    let port := swapBytes addr.sinPort
    let listen : IpListenEndpoint :=
      if addr.sinAddr = 0 then ⟨none, port⟩ else ⟨some addr.sinAddr, port⟩
    match smol.bind s.udp listen with
    | some udp => (.of (.ok 0), { s with udp, localAddr := some addr, state := .bound })
    | none => (.of .failed, s)

/-- `addr` is what the pointer points at, if it is not null. -/
def sysConnect (lock : Bool) (s : Socket σ) (addr : Option SockAddrIn) (addrlen : Nat) :
    Result × Socket σ :=
  match addr with
  | none => (.of .efault, s)
  | some addr =>
    if addrlen < sizeOfSockAddrIn then (.of .einval, s)
    else if addr.sinFamily ≠ afInet then (.of .einval, s)
    else if !lock then (.of .restart, s)
    else
      let (port, nextEphemeralPort) := allocEphemeralPort s.nextEphemeralPort
      let s := { s with nextEphemeralPort }
      match smol.bind s.udp ⟨none, port⟩ with
      | none => (.of .einval, s)
      | some udp => (.of (.ok 0), { s with udp, peerAddr := some addr, state := .connected })

def sysSendto (lock nonblock : Bool) (s : Socket σ) (null : Bool) (len : Nat) :
    Result × Socket σ :=
  if len = 0 then (.of (.ok 0), s)
  else if null then (.of .efault, s)
  else if !lock then (.of (if nonblock then .eagain else .restart), s)
  else
    match s.peerAddr with
    | none => (.of .einval, s)
    | some peer =>
      match smol.sendSlice s.udp len peer.endpoint with
      | some udp => (⟨.ok len, some peer.endpoint, none⟩, { s with udp })
      | none => (.of (if nonblock then .eagain else .restart), s)

def sysRecvfrom (lock nonblock : Bool) (s : Socket σ) (null : Bool) (len : Nat) :
    Result × Socket σ :=
  if len = 0 then (.of (.ok 0), s)
  else if null then (.of .efault, s)
  else if !lock then (.of (if nonblock then .eagain else .restart), s)
  else if !smol.canRecv s.udp then (.of (if nonblock then .eagain else .restart), s)
  else
    match smol.recvSlice s.udp len with
    | (.truncated, udp) => (.of (.ok 0), { s with udp })
    | (.exhausted, udp) => (.of .eagain, { s with udp })
    | (.datagram size source, udp) =>
      let s := match endpointToSockaddr source with
        | some peer => { s with udp, peerAddr := some peer }
        | none => { s with udp }
      (⟨.ok size, none, some source⟩, s)

inductive UdpOp (ε : Type) where
  | bind (lock : Bool) (addr : SockAddrIn) (addrlen : Nat)
  | connect (lock : Bool) (addr : Option SockAddrIn) (addrlen : Nat)
  | sendto (lock nonblock : Bool) (null : Bool) (len : Nat)
  | recvfrom (lock nonblock : Bool) (null : Bool) (len : Nat)
  | network (event : ε)

def UdpOp.run : UdpOp ε → Socket σ → Result × Socket σ
  | .bind lock addr addrlen, s => sysBind smol lock s addr addrlen
  | .connect lock addr addrlen, s => sysConnect smol lock s addr addrlen
  | .sendto lock nonblock null len, s => sysSendto smol lock nonblock s null len
  | .recvfrom lock nonblock null len, s => sysRecvfrom smol lock nonblock s null len
  | .network event, s => (.of (.ok 0), { s with udp := smol.poll s.udp event })

end

/-- A socket that `sys_socket` has made. -/
def Socket.new (udp : σ) (nextEphemeralPort : UInt32) : Socket σ :=
  ⟨udp, none, none, .created, nextEphemeralPort⟩

end Felix.Udp
