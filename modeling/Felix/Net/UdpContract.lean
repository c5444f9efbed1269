import Felix.Net.Udp

/-!
# Where datagrams go

A program that has connected its socket expects its datagrams to go to the peer of that
connect.  The kernel keeps one peer address, and `recvfrom` writes the source of what it
receives there, so after a datagram from elsewhere they go elsewhere.  `connect` also
always binds an ephemeral port, which smoltcp refuses once the socket has a port.

`Plain` is a socket that behaves as smoltcp documents, for runs on given calls.
-/

namespace Felix.Udp

variable {σ ε : Type} (smol : Smoltcp σ ε)

/-- The socket, the address of the last `connect` that succeeded, and the source of the last IPv4
datagram received since. -/
structure Traced (σ : Type) where
  sock : Socket σ
  connected : Option SockAddrIn
  source : Option IpEndpoint

/-- The history after a call. -/
def Traced.note (w : Traced σ) (op : UdpOp ε) (r : Result) (sock : Socket σ) : Traced σ :=
  match op with
  | .connect _ addr _ => if r.ret = .ok 0 then ⟨sock, addr, none⟩ else { w with sock }
  | _ =>
    match r.received with
    | some ⟨.ipv4 bits, port⟩ => { w with sock, source := some ⟨.ipv4 bits, port⟩ }
    | _ => { w with sock }

def UdpOp.step (op : UdpOp ε) (w : Traced σ) : Result × Traced σ :=
  let (r, sock) := op.run smol w.sock
  (r, w.note op r sock)

/-- A `connect` with a proper address that gets at the network stack. -/
def Proper (lock : Bool) (addr : Option SockAddrIn) (addrlen : Nat) : Prop :=
  lock = true ∧ sizeOfSockAddrIn ≤ addrlen ∧ ∃ a, addr = some a ∧ a.sinFamily = afInet

/-- What the program expects of a call. -/
def UdpOp.Right (op : UdpOp ε) (w : Traced σ) : Prop :=
  match op with
  | .connect lock addr addrlen => Proper lock addr addrlen →
    (op.step smol w).1.ret = .ok 0 ∧ (smol.isOpen w.sock.udp = true →
      smol.endpoint (op.step smol w).2.sock.udp = smol.endpoint w.sock.udp)
  | .sendto .. =>
    ∀ a dst, w.connected = some a → (op.step smol w).1.sent = some dst → dst = a.endpoint
  | _ => True

/-- The calls for which the kernel does that: a `connect` of a socket without a port, and a
`sendto` before which no datagram has come from elsewhere, or none that smoltcp can answer. -/
def UdpOp.Meets (op : UdpOp ε) (w : Traced σ) : Prop :=
  match op with
  | .connect lock addr addrlen => Proper lock addr addrlen → smol.isOpen w.sock.udp = false
  | .sendto lock _ null len => lock = true → null = false → len ≠ 0 →
    ∀ a src, w.connected = some a → w.source = some src →
      (smol.sendSlice w.sock.udp len src).isSome → src = a.endpoint
  | _ => True

/-! ## The kernel's peer address -/

theorem toNat_swapBytes (w : UInt16) :
    (swapBytes w).toNat = w.toNat % 256 * 256 + w.toNat / 256 := by
  have hw : w.toNat < 65536 := w.toNat_lt
  rw [swapBytes, UInt16.toNat_ofNat']
  omega

theorem swapBytes_swapBytes (w : UInt16) : swapBytes (swapBytes w) = w := by
  have hw : w.toNat < 65536 := w.toNat_lt
  apply UInt16.toNat_inj.1
  rw [toNat_swapBytes, toNat_swapBytes]
  omega

theorem endpoint_of_source {bits : UInt32} {port : UInt16} :
    ∃ p, endpointToSockaddr ⟨.ipv4 bits, port⟩ = some p ∧ p.endpoint = ⟨.ipv4 bits, port⟩ := by
  refine ⟨_, rfl, ?_⟩
  rw [SockAddrIn.endpoint, swapBytes_swapBytes]

theorem ephemeralPort_ne_zero (counter : UInt32) : (allocEphemeralPort counter).1 ≠ 0 := by
  intro h
  have hnat := congrArg UInt16.toNat h
  simp only [allocEphemeralPort, UInt16.toNat_ofNat', UInt16.toNat_zero] at hnat
  omega

/-- The peer address is the source of the last datagram, or else the address of the connect. -/
structure Inv (w : Traced σ) : Prop where
  source : ∀ src, w.source = some src → ∃ p, w.sock.peerAddr = some p ∧ p.endpoint = src
  peer : w.source = none → w.sock.peerAddr = w.connected

variable {smol} {w : Traced σ} {lock nonblock null : Bool} {addr : Option SockAddrIn}
  {dst : IpEndpoint} {addrlen len : Nat}

/-- A call that leaves the peer address alone. -/
theorem Inv.update {sock : Socket σ} (hw : Inv w) (hpeer : sock.peerAddr = w.sock.peerAddr) :
    Inv { w with sock } :=
  ⟨fun src hsrc => by rw [hpeer]; exact hw.source src hsrc,
    fun hnone => by rw [hpeer]; exact hw.peer hnone⟩

theorem bind_step (lock : Bool) (addr : SockAddrIn) (addrlen : Nat) (hw : Inv w) :
    Inv (UdpOp.step smol (.bind lock addr addrlen) w).2 := by
  simp only [UdpOp.step, UdpOp.run, sysBind]
  split
  · exact hw
  split
  · exact hw
  split
  · exact hw.update rfl
  · exact hw

theorem connect_step (lock : Bool) (addr : Option SockAddrIn) (addrlen : Nat)
    (hw : Inv w) : Inv (UdpOp.step smol (.connect lock addr addrlen) w).2 := by
  rcases addr with _ | a
  · exact hw
  simp only [UdpOp.step, UdpOp.run, sysConnect]
  split
  · exact hw
  split
  · exact hw
  split
  · exact hw
  split
  · exact hw.update rfl
  · exact ⟨fun src hsrc => (nomatch hsrc), fun _ => rfl⟩

theorem sendto_step (lock nonblock null : Bool) (len : Nat) (hw : Inv w) :
    Inv (UdpOp.step smol (.sendto lock nonblock null len) w).2 := by
  simp only [UdpOp.step, UdpOp.run, sysSendto]
  split
  · exact hw
  split
  · exact hw
  split
  · exact hw
  split
  · exact hw
  split
  · exact hw.update rfl
  · exact hw

theorem recvfrom_step (lock nonblock null : Bool) (len : Nat) (hw : Inv w) :
    Inv (UdpOp.step smol (.recvfrom lock nonblock null len) w).2 := by
  simp only [UdpOp.step, UdpOp.run, sysRecvfrom]
  split
  · exact hw
  split
  · exact hw
  split
  · exact hw
  split
  · exact hw
  split
  · exact hw.update rfl
  · exact hw.update rfl
  rename_i size source udp hrecv
  rcases source with ⟨addr, port⟩
  cases addr with
  | ipv6 => exact hw.update rfl
  | ipv4 bits =>
    obtain ⟨p, hp, hendpoint⟩ := @endpoint_of_source bits port
    refine ⟨fun src hsrc => ?_, fun hnone => (nomatch hnone)⟩
    cases hsrc
    exact ⟨p, hp, hendpoint⟩

theorem step_inv (op : UdpOp ε) (w : Traced σ) (hw : Inv w) : Inv (op.step smol w).2 := by
  cases op with
  | bind lock addr addrlen => exact bind_step lock addr addrlen hw
  | connect lock addr addrlen => exact connect_step lock addr addrlen hw
  | sendto lock nonblock null len => exact sendto_step lock nonblock null len hw
  | recvfrom lock nonblock null len => exact recvfrom_step lock nonblock null len hw
  | network event => exact hw.update rfl

/-! ## The two calls -/

/-- A `sendto` that gets through to the stack sends to the peer address, if smoltcp does. -/
theorem sendto_sent :
    (UdpOp.step smol (.sendto lock nonblock null len) w).1.sent = some dst ↔
      lock = true ∧ null = false ∧ len ≠ 0 ∧ ∃ p, w.sock.peerAddr = some p ∧ p.endpoint = dst ∧
        (smol.sendSlice w.sock.udp len dst).isSome := by
  simp only [UdpOp.step, UdpOp.run, sysSendto]
  rcases w.sock.peerAddr with _ | p
  · cases lock <;> cases null <;> by_cases hlen : len = 0 <;> simp [hlen, Result.of]
  cases lock <;> cases null <;> by_cases hlen : len = 0 <;> simp [hlen, Result.of]
  rcases hsend : smol.sendSlice w.sock.udp len p.endpoint with _ | udp
  · simp only [reduceCtorEq, false_iff, not_and]
    rintro rfl
    simp [hsend]
  · simp only [Option.some.injEq, iff_self_and]
    rintro rfl
    simp [hsend]

theorem sendto_right_iff (hw : Inv w) :
    UdpOp.Right smol (.sendto lock nonblock null len) w ↔
      UdpOp.Meets smol (.sendto lock nonblock null len) w := by
  constructor
  · intro hright hlock hnull hlen a src ha hsrc hsends
    obtain ⟨p, hp, hendpoint⟩ := hw.source src hsrc
    exact hright a src ha (sendto_sent.2 ⟨hlock, hnull, hlen, p, hp, hendpoint, hsends⟩)
  · intro hmeets a dst ha hsent
    obtain ⟨hlock, hnull, hlen, p, hp, rfl, hsends⟩ := sendto_sent.1 hsent
    rcases hsource : w.source with _ | src
    · rw [hw.peer hsource, ha] at hp
      cases hp
      rfl
    obtain ⟨q, hq, rfl⟩ := hw.source src hsource
    rw [hp] at hq
    cases hq
    exact hmeets hlock hnull hlen a _ ha hsource hsends

/-- A proper `connect` succeeds exactly on a closed socket. -/
theorem connect_ok_iff (hlaw : smol.Lawful) (h : Proper lock addr addrlen) :
    (UdpOp.step smol (.connect lock addr addrlen) w).1.ret = .ok 0 ↔
      smol.isOpen w.sock.udp = false := by
  obtain ⟨rfl, hlen, a, rfl, hfamily⟩ := h
  simp only [UdpOp.step, UdpOp.run, sysConnect, if_neg (Nat.not_lt.2 hlen), hfamily]
  rcases hopen : smol.isOpen w.sock.udp with _ | _
  · obtain ⟨udp, hbind⟩ := Option.isSome_iff_exists.1 (hlaw.bind_closed _
      ⟨none, (allocEphemeralPort w.sock.nextEphemeralPort).1⟩ hopen (ephemeralPort_ne_zero _))
    simp [hbind, Result.of]
  · simp [hlaw.bind_open _ _ hopen, Result.of]

theorem connect_right_iff (hlaw : smol.Lawful) :
    UdpOp.Right smol (.connect lock addr addrlen) w ↔
      UdpOp.Meets smol (.connect lock addr addrlen) w := by
  constructor
  · intro hright hproper
    exact (connect_ok_iff hlaw hproper).1 (hright hproper).1
  · intro hmeets hproper
    have hclosed := hmeets hproper
    refine ⟨(connect_ok_iff hlaw hproper).2 hclosed, fun hopen => ?_⟩
    rw [hclosed] at hopen
    cases hopen

/-! ## Runs -/

def Traced.new (udp : σ) (nextEphemeralPort : UInt32) : Traced σ :=
  ⟨.new udp nextEphemeralPort, none, none⟩

theorem new_inv (udp : σ) (nextEphemeralPort : UInt32) : Inv (.new udp nextEphemeralPort) :=
  ⟨fun _ h => (nomatch h), fun _ => rfl⟩

/-- Along every run, the calls do what a program expects exactly if each `connect` is of a socket
without a port, and nothing is sent after a datagram from elsewhere. -/
theorem udp_calls_right_iff (hlaw : smol.Lawful) (udp : σ) (nextEphemeralPort : UInt32)
    (ops : List (UdpOp ε)) :
    EverySteps (UdpOp.step smol) (UdpOp.Right smol) ops (.new udp nextEphemeralPort) ↔
      EverySteps (UdpOp.step smol) (UdpOp.Meets smol) ops (.new udp nextEphemeralPort) := by
  refine everySteps_congr Inv (fun op w hw _ => step_inv op w hw) (fun op w hw => ?_)
    (new_inv udp nextEphemeralPort)
  cases op with
  | connect lock addr addrlen => exact connect_right_iff hlaw
  | sendto lock nonblock null len => exact sendto_right_iff hw
  | _ => exact Iff.rfl

/-! ## A socket -/

structure Datagram where
  size : Nat
  source : IpEndpoint

/-- The local endpoint, with port 0 as long as the socket is closed, and the datagrams that have
come in. -/
structure Plain where
  endpoint : IpListenEndpoint
  rx : List Datagram

/-- A socket of smoltcp with a transmit buffer that always has room.  An event of the network is
a datagram that arrives. -/
def plain : Smoltcp Plain Datagram where
  isOpen s := s.endpoint.port ≠ 0
  endpoint := Plain.endpoint
  bind s endpoint :=
    if endpoint.port = 0 then none
    else if s.endpoint.port ≠ 0 then none
    else some { s with endpoint }
  sendSlice s _ dst :=
    if s.endpoint.port = 0 ∨ dst.addr = .ipv4 0 ∨ dst.port = 0 then none else some s
  canRecv s := !s.rx.isEmpty
  recvSlice s len :=
    match s.rx with
    | [] => (.exhausted, s)
    | d :: rx =>
      (if len < d.size then .truncated else .datagram d.size d.source, { s with rx })
  poll s d := { s with rx := s.rx ++ [d] }

def closedSocket : Plain := ⟨⟨none, 0⟩, []⟩

theorem plain_lawful : plain.Lawful where
  bind_open := by
    intro s endpoint hopen
    have hport : s.endpoint.port ≠ 0 := of_decide_eq_true hopen
    simp only [plain, if_pos hport, ite_self]
  bind_closed := by
    intro s endpoint hclosed hport
    have hzero : ¬ s.endpoint.port ≠ 0 := of_decide_eq_false hclosed
    simp only [plain, if_neg hport, if_neg hzero, Option.isSome_some]

/-- Two hosts. -/
def nameServer : SockAddrIn := ⟨afInet, 0x3500, 0x0A000202⟩

def otherHost : IpEndpoint := ⟨.ipv4 0x0A000203, 9⟩

/-- A program that connects, gets an answer from its peer and writes to it again. -/
theorem udp_calls_right_answered : EverySteps (UdpOp.step plain) (UdpOp.Right plain)
    [.sendto true false false 4, .connect true (some nameServer) 16, .sendto true false false 4,
      .network ⟨4, nameServer.endpoint⟩, .recvfrom true false false 64, .sendto true false false 4]
    (.new closedSocket 0) := by
  refine (udp_calls_right_iff plain_lawful closedSocket 0 _).2 ⟨?_, ?_, ?_, ?_, ?_, ?_, ?_⟩
  · intro _ _ _ a src ha
    cases ha
  · exact fun _ => rfl
  · intro _ _ _ a src _ hsrc
    cases hsrc
  · trivial
  · trivial
  · intro _ _ _ a src ha hsrc _
    cases ha
    cases hsrc
    rfl
  · trivial

/-- A bound socket cannot be connected; and the answer to a datagram from another host goes to
that host. -/
theorem bound_connect_fails_and_answer_diverted :
    ¬ EverySteps (UdpOp.step plain) (UdpOp.Right plain)
      [.bind true ⟨afInet, 0x1027, 0⟩ 16, .connect true (some nameServer) 16]
      (.new closedSocket 0) ∧
    ¬ EverySteps (UdpOp.step plain) (UdpOp.Right plain)
      [.connect true (some nameServer) 16, .network ⟨4, otherHost⟩, .recvfrom true false false 64,
        .sendto true false false 4] (.new closedSocket 0) := by
  constructor
  · rintro ⟨-, hconnect, -⟩
    have hok := (hconnect ⟨rfl, by decide, _, rfl, rfl⟩).1
    revert hok
    decide
  · rintro ⟨-, -, -, hsend, -⟩
    have hsame := hsend nameServer otherHost rfl (by decide)
    revert hsame
    decide

end Felix.Udp
