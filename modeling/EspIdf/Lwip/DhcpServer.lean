import Mathlib.Algebra.Ring.Nat
import Mathlib.Data.Fin.Basic
import EspIdf.Device.Runs

/-! The leases of the DHCP server (`lwip/apps/dhcpserver.c`): which addresses `parse_msg` gives out,
how the lease list is kept, and how leases expire. -/

namespace EspIdf.Dhcps

open EspIdf.Runs

/-- `ip4_addr_t`: the four bytes in the order in which they are stored and sent. -/
structure Ip4 where
  a : Fin 256
  b : Fin 256
  c : Fin 256
  d : Fin 256
  deriving DecidableEq, Repr

namespace Ip4

def addr (x : Ip4) : Nat := x.a + 2 ^ 8 * x.b + 2 ^ 16 * x.c + 2 ^ 24 * x.d

def host (x : Ip4) : Nat := 2 ^ 24 * x.a + 2 ^ 16 * x.b + 2 ^ 8 * x.c + x.d

def ofHost (h : Nat) : Ip4 :=
  ⟨Fin.ofNat 256 (h / 2 ^ 24), Fin.ofNat 256 (h / 2 ^ 16), Fin.ofNat 256 (h / 2 ^ 8),
    Fin.ofNat 256 h⟩

def next (x : Ip4) : Ip4 := ofHost ((x.host + 1) % 2 ^ 32)

end Ip4

/-- `dhcps_lease_t`: the range of addresses. -/
structure LeaseRange where
  enable : Bool
  startIp : Ip4
  endIp : Ip4
  deriving DecidableEq, Repr

def maxLease : Nat := 0x64

def rangeKept (ip : Ip4) (r : LeaseRange) : Bool :=
  r.enable && !(r.startIp.host ≤ ip.host && ip.host ≤ r.endIp.host) &&
    r.startIp.host >>> 8 = ip.host >>> 8 && r.endIp.host >>> 8 = ip.host >>> 8 &&
    (r.endIp.host + 2 ^ 32 - r.startIp.host) % 2 ^ 32 ≤ maxLease

def defaultRange (ip : Ip4) : LeaseRange :=
  let localIp := if 0x80 ≤ ip.d.val then ip.d.val - maxLease else ip.d.val + 1
  { enable := false
    startIp := { ip with d := Fin.ofNat 256 localIp }
    endIp := { ip with d := Fin.ofNat 256 (localIp + maxLease - 1) } }

def dhcpsPollSet (ip : Ip4) (r : LeaseRange) : LeaseRange :=
  if rangeKept ip r then r else defaultRange ip

structure Lease where
  ip : Ip4
  mac : List Nat
  leaseTimer : Nat
  deriving DecidableEq, Repr

/-- The members of a message that `parse_msg` reads: whether the magic cookie is there, and the
options behind it with their length. -/
structure Msg where
  cookie : Bool
  ciaddr : Ip4
  chaddr : List Nat
  options : Nat → Nat
  len : Int

def Msg.mac (m : Msg) : List Nat := m.chaddr.take 6

inductive DhcpsState where
  | offer
  | ack
  | nak
  | idle
  | release
  deriving DecidableEq, Repr

structure Server where
  serverAddress : Ip4
  poll : LeaseRange
  clientAddress : Ip4
  clientAddressPlus : Ip4
  plist : List Lease
  renew : Bool
  dhcpsLeaseTime : Nat
  deriving DecidableEq, Repr

/-! ### Options -/

/-- The loop of `parse_options` at offset `pos`, with the message type and the state found so
far; each round takes at least two bytes. -/
def optionsLoop (client : Ip4) (m : Msg) : Nat → Nat → Nat × DhcpsState → Nat × DhcpsState
  | 0, _, acc => acc
  | fuel + 1, pos, acc =>
    if m.len ≤ pos then acc
    else
      let skip := pos + m.options (pos + 1) + 2
      match m.options pos with
      | 53 => optionsLoop client m fuel skip (m.options (pos + 2), acc.2)
      | 50 =>
        let same := client.a.val = m.options (pos + 2) ∧ client.b.val = m.options (pos + 3) ∧
          client.c.val = m.options (pos + 4) ∧ client.d.val = m.options (pos + 5)
        optionsLoop client m fuel skip (acc.1, if same then .ack else .nak)
      | 255 => acc
      | _ => optionsLoop client m fuel skip acc

def parseOptions (client : Ip4) (renew : Bool) (m : Msg) : DhcpsState :=
  let (type, state) := optionsLoop client m m.len.toNat 0 (0, .idle)
  match type with
  | 1 => .offer
  | 3 => if state = .ack ∨ state = .nak then state else if renew then .ack else .nak
  | 4 => .idle
  | 7 => .release
  | _ => state

/-! ### The lease list -/

def nodeInsertToList (p : Lease) : List Lease → List Lease
  | [] => [p]
  | q :: l => if p.ip.addr < q.ip.addr then p :: q :: l else q :: nodeInsertToList p l

def nodeRemoveFromList (mac : List Nat) (l : List Lease) : List Lease := l.eraseP (·.mac = mac)

def setTimer (mac : List Nat) (timer : Nat) : List Lease → List Lease
  | [] => []
  | p :: l => if p.mac = mac then { p with leaseTimer := timer } :: l else p :: setTimer mac timer l

structure Walk where
  client : Ip4
  plus : Ip4
  first : Ip4
  flag : Bool
  found : Option Lease

namespace Walk

def movePlus (w : Walk) (p : Lease) : Walk :=
  if p.ip = w.plus then { w with plus := w.plus.next, client := w.plus.next } else w

def moveFirst (w : Walk) (p : Lease) : Walk :=
  if w.flag then w
  else if w.first.addr < p.ip.addr then { w with flag := true }
  else { w with first := w.first.next }

def pass (w : Walk) (p : Lease) : Walk := (w.movePlus p).moveFirst p

end Walk

def walk (mac : List Nat) : List Lease → Walk → Walk
  | [], w => w
  | p :: l, w =>
    if p.mac = mac then { w with client := p.ip, found := some p } else walk mac l (w.pass p)

namespace Server

def newTimer (s : Server) : Nat := s.dhcpsLeaseTime * 60 % 2 ^ 32

def startWalk (s : Server) : Walk :=
  ⟨s.clientAddressPlus, s.clientAddressPlus, s.poll.startIp, false, none⟩

def renewLease (s : Server) (m : Msg) (w : Walk) (p : Lease) : Server :=
  { s with
    renew := p.ip = m.ciaddr
    clientAddress := w.client
    clientAddressPlus := w.plus
    plist := setTimer m.mac s.newTimer s.plist }

def candidate (s : Server) (w : Walk) : Ip4 :=
  if s.poll.endIp.addr < w.plus.addr then w.first
  else if s.plist = [] then s.poll.startIp
  else w.client

def newLease (s : Server) (m : Msg) (w : Walk) : Server :=
  let client := s.candidate w
  if s.poll.endIp.addr < client.addr then
    { s with renew := false, clientAddress := client, clientAddressPlus := s.poll.startIp }
  else
    { s with
      renew := false
      clientAddress := client
      clientAddressPlus := if client = s.poll.endIp then s.poll.startIp else client.next
      plist := nodeInsertToList ⟨client, m.mac, s.newTimer⟩ s.plist }

def choose (s : Server) (m : Msg) : Server :=
  let w := walk m.mac s.plist s.startWalk
  match w.found with
  | some p => s.renewLease m w p
  | none => s.newLease m w

def poolCheck (s : Server) (m : Msg) : Option DhcpsState × Server :=
  if s.poll.endIp.addr < s.clientAddress.addr ∨ s.clientAddress.addr = 0 then
    (some .nak, { s with plist := nodeRemoveFromList m.mac s.plist })
  else
    let ret := parseOptions s.clientAddress s.renew m
    if ret = .release then
      (some ret, { s with
        plist := nodeRemoveFromList m.mac s.plist
        clientAddress := ⟨0, 0, 0, 0⟩ })
    else (some ret, s)

def parseMsg (s : Server) (m : Msg) : Option DhcpsState × Server :=
  if m.cookie then (s.choose m).poolCheck m else (none, s)

end Server

/-! ### Expiry -/

def Lease.countDown (p : Lease) : Lease :=
  { p with leaseTimer := if p.leaseTimer = 0 then 2 ^ 32 - 1 else p.leaseTimer - 1 }

def oldestIdx (l : List Lease) : Nat :=
  (l.zipIdx.foldl (fun best p => if p.1.leaseTimer < best.2 then (p.2, p.1.leaseTimer) else best)
    (0, (l.head?.map (·.leaseTimer)).getD 0)).1

def killOldest : List Lease → List Lease
  | [] => []
  | p :: l => p :: l.eraseIdx (oldestIdx l)

def maxStationNum : Nat := 8

namespace Server

def dhcpsCoarseTmr (s : Server) : Server :=
  let l := (s.plist.map Lease.countDown).filter (·.leaseTimer ≠ 0)
  { s with plist := if maxStationNum ≤ l.length % 256 then killOldest l else l }

/-- The server after `dhcps_start`. -/
def dhcpsStart (ip : Ip4) (r : LeaseRange) (leaseTime : Nat) : Server where
  serverAddress := ip
  poll := dhcpsPollSet ip r
  clientAddress := ⟨0, 0, 0, 0⟩
  clientAddressPlus := (dhcpsPollSet ip r).startIp
  plist := []
  renew := false
  dhcpsLeaseTime := leaseTime

end Server

inductive DhcpsEvent where
  | msg (m : Msg)
  | tick

def dhcpsStep (s : Server) : DhcpsEvent → Option Server
  | .msg m => some (s.parseMsg m).2
  | .tick => some s.dhcpsCoarseTmr

structure LeasesRight (s : Server) : Prop where
  ips : (s.plist.map (·.ip)).Nodup
  macs : (s.plist.map (·.mac)).Nodup
  sorted : s.plist.Pairwise fun p q => p.ip.host < q.ip.host
  inPool : ∀ p ∈ s.plist, s.poll.startIp.host ≤ p.ip.host ∧ p.ip.host ≤ s.poll.endIp.host
  notServer : ∀ p ∈ s.plist, p.ip ≠ s.serverAddress

end EspIdf.Dhcps
