import EspIdf.Lwip.DhcpLeases

/-! A range that ends with its segment: how clients take `client_address_plus` past its end; and
for which ranges the leases stay in the pool. -/

namespace EspIdf.Dhcps

open EspIdf.Runs

attribute [local instance] neZero_256

def clientMsg (type b : Nat) : Msg :=
  ⟨true, ⟨0, 0, 0, 0⟩, [b], fun i => [53, 1, type, 255].getD i 0, 4⟩

variable {b : Nat}

theorem parseMsg_offer {s t : Server} (hchoose : s.choose (clientMsg 1 b) = t)
    (hle : t.clientAddress.addr ≤ t.poll.endIp.addr) (hzero : t.clientAddress.addr ≠ 0) :
    (s.parseMsg (clientMsg 1 b)).2 = t := by
  have hmsg : s.parseMsg (clientMsg 1 b) = (s.choose (clientMsg 1 b)).poolCheck (clientMsg 1 b) := rfl
  have hoffer : parseOptions t.clientAddress t.renew (clientMsg 1 b) = .offer := rfl
  rw [hmsg, hchoose, Server.poolCheck, if_neg (not_or.2 ⟨Nat.not_lt.2 hle, hzero⟩)]
  rw [hoffer, if_neg (by decide)]

theorem parseMsg_bye {s t : Server} (hchoose : s.choose (clientMsg 7 b) = t)
    (hle : t.clientAddress.addr ≤ t.poll.endIp.addr) (hzero : t.clientAddress.addr ≠ 0) :
    (s.parseMsg (clientMsg 7 b)).2 =
      { t with plist := nodeRemoveFromList [b] t.plist, clientAddress := ⟨0, 0, 0, 0⟩ } := by
  have hmsg : s.parseMsg (clientMsg 7 b) = (s.choose (clientMsg 7 b)).poolCheck (clientMsg 7 b) := rfl
  rw [hmsg, hchoose, Server.poolCheck, if_neg (not_or.2 ⟨Nat.not_lt.2 hle, hzero⟩)]
  rfl

theorem walk_free {mac : List Nat} (hips : ∀ q ∈ l, q.ip ≠ w.plus) (hmacs : ∀ q ∈ l, q.mac ≠ mac) :
    (walk mac l w).plus = w.plus ∧
      (walk mac l w).client = w.client ∧ (walk mac l w).found = w.found := by
  induction l generalizing w with
  | nil => exact ⟨rfl, rfl, rfl⟩
  | cons p l ih =>
    have hp := hips p (.head _)
    have hplus : (w.pass p).plus = w.plus := by rw [w.pass_plus, if_neg hp]
    have hclient : (w.pass p).client = w.client := by rw [w.pass_client, if_neg hp]
    unfold walk
    rw [if_neg (hmacs p (.head _)), ← hplus, ← hclient, ← w.pass_found p]
    exact ih (fun q hq => hplus ▸ hips q (.tail _ hq)) fun q hq => hmacs q (.tail _ hq)

theorem remove_insert (hmacs : ∀ q ∈ l, q.mac ≠ p.mac) :
    nodeRemoveFromList p.mac (nodeInsertToList p l) = l := by
  induction l with
  | nil => simp [nodeInsertToList, nodeRemoveFromList]
  | cons q l ih =>
    unfold nodeInsertToList
    split_ifs
    · simp [nodeRemoveFromList]
    · have hq := hmacs q (.head _)
      have hl := ih fun q hq => hmacs q (.tail _ hq)
      unfold nodeRemoveFromList at hl ⊢
      rw [List.eraseP_cons_of_neg (by simpa using hq), hl]

variable {s : Server}

namespace Server

def plusAfter (s : Server) (client : Ip4) : Ip4 :=
  if client = s.poll.endIp then s.poll.startIp else client.next

structure Free (s : Server) (m : Msg) : Prop where
  ne_nil : s.plist ≠ []
  ips : ∀ q ∈ s.plist, q.ip ≠ s.clientAddressPlus
  macs : ∀ q ∈ s.plist, q.mac ≠ m.mac
  le : s.clientAddressPlus.addr ≤ s.poll.endIp.addr
  ne_zero : s.clientAddressPlus.addr ≠ 0

theorem choose_free {m : Msg} (h : s.Free m) : s.choose m = { s with
      renew := false
      clientAddress := s.clientAddressPlus
      clientAddressPlus := s.plusAfter s.clientAddressPlus
      plist := nodeInsertToList ⟨s.clientAddressPlus, m.mac, s.newTimer⟩ s.plist } := by
  obtain ⟨hplus, hclient, hfound⟩ := walk_free (w := s.startWalk) h.ips h.macs
  have hcand : s.candidate (walk m.mac s.plist s.startWalk) = s.clientAddressPlus := by
    have hle : ¬ s.poll.endIp.addr < s.startWalk.plus.addr := Nat.not_lt.2 h.le
    unfold candidate
    rw [hplus, if_neg hle, if_neg h.ne_nil, hclient]
    rfl
  unfold choose
  dsimp only
  rw [hfound]
  unfold newLease
  rw [hcand, if_neg (Nat.not_lt.2 h.le)]
  rfl

theorem parseMsg_release (h : s.Free (clientMsg 7 b)) :
    (s.parseMsg (clientMsg 7 b)).2.plist = s.plist ∧ (s.parseMsg (clientMsg 7 b)).2.poll = s.poll ∧
      (s.parseMsg (clientMsg 7 b)).2.clientAddressPlus = s.plusAfter s.clientAddressPlus := by
  rw [parseMsg_bye (choose_free h) h.le h.ne_zero]
  exact ⟨remove_insert (p := ⟨_, [b], _⟩) h.macs, rfl, rfl⟩

theorem parseMsg_discover (h : s.Free (clientMsg 1 b)) :
    (s.parseMsg (clientMsg 1 b)).2.plist =
      nodeInsertToList ⟨s.clientAddressPlus, [b], s.newTimer⟩ s.plist ∧
      (s.parseMsg (clientMsg 1 b)).2.poll = s.poll ∧
      (s.parseMsg (clientMsg 1 b)).2.clientAddressPlus = s.plusAfter s.clientAddressPlus := by
  rw [parseMsg_offer (choose_free h) h.le h.ne_zero]
  exact ⟨rfl, rfl, rfl⟩

end Server

theorem releases_to_end {ip : Ip4} {o : Nat} (hend : s.poll.endIp = ip.seg 255)
    (hplus : s.clientAddressPlus = ip.seg o) (hpos : 0 < o) (ho : o ≤ 255) (hne : s.plist ≠ [])
    (hmacs : ∀ q ∈ s.plist, q.mac ≠ [2])
    (hips : ∀ q ∈ s.plist, ∀ x, o ≤ x → x < 255 → q.ip ≠ ip.seg x) :
    ∃ es t, run dhcpsStep s es = some t ∧ t.plist = s.plist ∧ t.poll = s.poll ∧
      t.clientAddressPlus = ip.seg 255 := by
  induction hk : 255 - o generalizing s o with
  | zero =>
    obtain rfl : o = 255 := by omega
    exact ⟨[], s, rfl, rfl, rfl, hplus⟩
  | succ k ih =>
    have hlt : o < 255 := by omega
    have hfree : s.Free (clientMsg 7 2) := by
      refine ⟨hne, fun q hq => hplus ▸ hips q hq o le_rfl hlt, hmacs, ?_, ?_⟩
      · rw [hplus, hend]
        exact Nat.le_of_lt ((ip.seg_addr_lt (by omega) (by omega)).2 hlt)
      · rw [hplus, ip.seg_addr (by omega)]
        omega
    obtain ⟨hplist, hpoll, hplus'⟩ := Server.parseMsg_release hfree
    have hnext : (s.parseMsg (clientMsg 7 2)).2.clientAddressPlus = ip.seg (o + 1) := by
      have hnot : ip.seg o ≠ ip.seg 255 := fun heq => by
        have := (ip.seg_inj (by omega) (by omega)).1 heq
        omega
      rw [hplus', Server.plusAfter, hplus, hend, if_neg hnot, ip.seg_next hlt]
    obtain ⟨es, t, hrun, htlist, htpoll, htplus⟩ := ih (s := (s.parseMsg (clientMsg 7 2)).2)
      (hpoll ▸ hend) hnext (by omega) (by omega) (hplist ▸ hne) (hplist ▸ hmacs)
      (hplist ▸ fun q hq x hx => hips q hq x (by omega)) (by omega)
    exact ⟨.msg (clientMsg 7 2) :: es, t, run_cons.2 ⟨_, rfl, hrun⟩, htlist.trans hplist,
      htpoll.trans hpoll, htplus⟩

theorem first_lease (hnil : s.plist = []) (b : Nat)
    (hle : s.poll.startIp.addr ≤ s.poll.endIp.addr) (hzero : s.poll.startIp.addr ≠ 0) :
    (s.parseMsg (clientMsg 1 b)).2.plist = [⟨s.poll.startIp, [b], s.newTimer⟩] ∧
      (s.parseMsg (clientMsg 1 b)).2.poll = s.poll ∧
      (s.parseMsg (clientMsg 1 b)).2.clientAddressPlus = s.plusAfter s.poll.startIp := by
  have hcand : s.candidate s.startWalk = s.poll.startIp := by
    unfold Server.candidate
    rw [if_pos hnil, Server.startWalk, ite_self]
  have hchoose : s.choose (clientMsg 1 b) = { s with
      renew := false
      clientAddress := s.poll.startIp
      clientAddressPlus := s.plusAfter s.poll.startIp
      plist := [⟨s.poll.startIp, [b], s.newTimer⟩] } := by
    unfold Server.choose
    rw [hnil]
    change s.newLease (clientMsg 1 b) s.startWalk = _
    unfold Server.newLease
    rw [hcand, if_neg (Nat.not_lt.2 hle), hnil]
    rfl
  rw [parseMsg_offer hchoose hle hzero]
  exact ⟨rfl, rfl, rfl⟩

theorem head_released {p c : Lease} (hplist : s.plist = [p, c])
    (hmac : p.mac = [b]) (hle : p.ip.addr ≤ s.poll.endIp.addr) (hzero : p.ip.addr ≠ 0) :
    (s.parseMsg (clientMsg 7 b)).2.plist = [c] ∧ (s.parseMsg (clientMsg 7 b)).2.poll = s.poll ∧
      (s.parseMsg (clientMsg 7 b)).2.clientAddressPlus = s.clientAddressPlus := by
  have hb : p.mac = (clientMsg 7 b).mac := hmac
  have hwalk : walk (clientMsg 7 b).mac s.plist s.startWalk =
      { s.startWalk with client := p.ip, found := some p } := by
    rw [hplist, walk, if_pos hb]
  have hchoose : s.choose (clientMsg 7 b) = { s with
      renew := p.ip = (clientMsg 7 b).ciaddr
      clientAddress := p.ip
      plist := [{ p with leaseTimer := s.newTimer }, c] } := by
    unfold Server.choose
    rw [hwalk]
    simp only [Server.renewLease, hplist, setTimer, if_pos hb]
    rfl
  rw [parseMsg_bye hchoose hle hzero]
  refine ⟨?_, rfl, rfl⟩
  simp [nodeRemoveFromList, hmac]

structure Full (ip : Ip4) (r : LeaseRange) (t : Server) : Prop where
  plist : ∃ c : Lease, t.plist = [c] ∧ c.ip = ip.seg 255 ∧ c.mac ≠ [4] ∧ c.mac ≠ [5]
  poll : t.poll = r
  plus : t.clientAddressPlus = ip.seg 255

structure Single (ip : Ip4) (r : LeaseRange) (t : Server) (b o x : Nat) : Prop where
  plist : ∃ timer, t.plist = [⟨ip.seg o, [b], timer⟩]
  poll : t.poll = r
  plus : t.clientAddressPlus = ip.seg x

section Segment

variable {ip : Ip4} {r : LeaseRange} {lo : Nat}

theorem RangeIn.start_pos (h : RangeIn ip r lo 255) : 0 < lo := by
  have hlen := h.len
  rw [maxLease] at hlen
  omega

theorem Ip4.seg_addr_ne_zero (ip : Ip4) (hpos : 0 < o) (ho : o < 256) : (ip.seg o).addr ≠ 0 := by
  rw [ip.seg_addr ho]
  omega

theorem RangeIn.seg_le_end (h : RangeIn ip r lo 255) (ho : o < 256) : (ip.seg o).addr ≤
    r.endIp.addr := by
  rw [h.endIp, ip.seg_addr ho, ip.seg_addr (show 255 < 256 by decide)]
  omega

theorem RangeIn.plusAfter_seg (h : RangeIn ip r lo 255) {t : Server} (hpoll : t.poll = r)
    {o : Nat} (ho : o ≤ 255) :
    t.plusAfter (ip.seg o) = ip.seg (if o = 255 then lo else o + 1) := by
  rw [Server.plusAfter, hpoll, h.endIp, h.startIp]
  by_cases hlast : o = 255
  · rw [hlast, if_pos rfl, if_pos rfl]
  · rw [if_neg fun heq => hlast ((ip.seg_inj (by omega) (by omega)).1 heq), if_neg hlast,
      ip.seg_next (by omega)]

theorem single_first (leaseTime : Nat) (hrange : RangeIn ip (dhcpsPollSet ip r) lo 255) :
    ∃ t, run dhcpsStep (Server.dhcpsStart ip r leaseTime) [.msg (clientMsg 1 1)] = some t ∧
      Single ip (dhcpsPollSet ip r) t 1 lo (if lo = 255 then lo else lo + 1) := by
  have hle := hrange.le
  have hstart : (Server.dhcpsStart ip r leaseTime).poll.startIp = ip.seg lo := hrange.startIp
  obtain ⟨hlist, hpoll, hplus⟩ := first_lease (s := Server.dhcpsStart ip r leaseTime) rfl 1
    (by rw [hstart]; exact hrange.seg_le_end (by omega))
    (by rw [hstart]; exact ip.seg_addr_ne_zero hrange.start_pos (by omega))
  rw [hstart] at hlist hplus
  exact ⟨_, rfl, ⟨_, hlist⟩, hpoll, hplus.trans (hrange.plusAfter_seg rfl hle)⟩

theorem Single.to_end {t : Server} {b o x : Nat} (hrange : RangeIn ip r lo 255)
    (h : Single ip r t b o x) (hb : b ≠ 2) (hpos : 0 < x) (hx : x ≤ 255) (ho : o ≤ 255)
    (hnot : o < x ∨ o = 255) :
    ∃ es u, run dhcpsStep t es = some u ∧ Single ip r u b o 255 := by
  obtain ⟨timer, hlist⟩ := h.plist
  obtain ⟨es, u, hrun, hulist, hupoll, huplus⟩ := releases_to_end (s := t)
    (h.poll ▸ hrange.endIp) h.plus hpos hx (by simp [hlist]) (by simpa [hlist] using hb)
    (by
      simp only [hlist, List.mem_singleton, forall_eq]
      intro y hy hlt heq
      have := (ip.seg_inj (by omega) (by omega)).1 heq
      omega)
  exact ⟨es, u, hrun, ⟨timer, hulist.trans hlist⟩, hupoll.trans h.poll, huplus⟩

theorem Single.wrap {t : Server} (hrange : RangeIn ip r lo 255) (hlo : lo < 255)
    (h : Single ip r t 1 lo 255) :
    ∃ u, run dhcpsStep t [.msg (clientMsg 1 3), .msg (clientMsg 7 1)] = some u ∧
      Single ip r u 3 255 lo := by
  obtain ⟨timer, hlist⟩ := h.plist
  have hfree : t.Free (clientMsg 1 3) := by
    refine ⟨by simp [hlist], ?_, ?_, ?_, ?_⟩
    · simp only [hlist, List.mem_singleton, forall_eq, h.plus]
      intro heq
      have := (ip.seg_inj (by omega) (by omega)).1 heq
      omega
    · simp only [hlist, List.mem_singleton, forall_eq]
      decide
    · rw [h.plus, h.poll]
      exact hrange.seg_le_end (by decide)
    · rw [h.plus]
      exact ip.seg_addr_ne_zero (by decide) (by decide)
  obtain ⟨hslist, hspoll, hsplus⟩ := Server.parseMsg_discover hfree
  have hins : nodeInsertToList ⟨ip.seg 255, [3], t.newTimer⟩ [⟨ip.seg lo, [1], timer⟩] =
      [⟨ip.seg lo, [1], timer⟩, ⟨ip.seg 255, [3], t.newTimer⟩] := by
    unfold nodeInsertToList
    rw [if_neg]
    · rfl
    · rw [ip.seg_addr_lt (by decide) (by omega)]
      omega
  rw [hlist, h.plus, hins] at hslist
  rw [h.poll] at hspoll
  rw [h.plus, hrange.plusAfter_seg h.poll le_rfl] at hsplus
  obtain ⟨hulist, hupoll, huplus⟩ := head_released (b := 1) hslist rfl
    (by rw [hspoll]; exact hrange.seg_le_end (by omega))
    (ip.seg_addr_ne_zero hrange.start_pos (by omega))
  exact ⟨_, run_cons.2 ⟨_, rfl, rfl⟩, ⟨_, hulist⟩, hupoll.trans hspoll, huplus.trans hsplus⟩

theorem Single.full (h : Single ip r t b 255 255) (hb : b < 4) : Full ip r t := by
  obtain ⟨timer, hlist⟩ := h.plist
  refine ⟨⟨_, hlist, rfl, ?_, ?_⟩, h.poll, h.plus⟩
  · simp only [ne_eq, List.cons.injEq, and_true]
    omega
  · simp only [ne_eq, List.cons.injEq, and_true]
    omega

theorem reach_full (leaseTime : Nat) (hrange : RangeIn ip (dhcpsPollSet ip r) lo 255) :
    ∃ es t, run dhcpsStep (Server.dhcpsStart ip r leaseTime) es = some t ∧
      Full ip (dhcpsPollSet ip r) t := by
  have hle := hrange.le
  obtain ⟨s₁, hrun₁, hs₁⟩ := single_first leaseTime hrange
  by_cases hone : lo = 255
  · subst hone
    exact ⟨_, s₁, hrun₁, Single.full (by simpa using hs₁) (by decide)⟩
  · -- to the end of the range, a lease there, back to its start, and to the end again
    rw [if_neg hone] at hs₁
    obtain ⟨es₂, s₂, hrun₂, hs₂⟩ := hs₁.to_end hrange (by decide) (by omega) (by omega) hle
      (.inl (by omega))
    obtain ⟨s₃, hrun₃, hs₃⟩ := hs₂.wrap hrange (by omega)
    obtain ⟨es₄, s₄, hrun₄, hs₄⟩ := hs₃.to_end hrange (by decide) hrange.start_pos hle le_rfl (.inr rfl)
    exact ⟨_, s₄, run_append.2 ⟨s₁, hrun₁, run_append.2 ⟨s₂, hrun₂,
      run_append.2 ⟨s₃, hrun₃, hrun₄⟩⟩⟩, hs₄.full (by decide)⟩

end Segment

theorem Ip4.host_ofHost (h : Nat) : (Ip4.ofHost h).host = h % 2 ^ 32 := by
  simp only [Ip4.host, Ip4.ofHost, Fin.val_ofNat]
  omega

theorem Ip4.seg_zero_host (ip : Ip4) : (ip.seg 0).host % 256 = 0 ∧ (ip.seg 0).host + 256 ≤ 2 ^ 32 := by
  simp only [Ip4.host, Ip4.seg, Fin.val_ofNat]
  omega

theorem Ip4.next_last (ip : Ip4) : (ip.seg 255).next.d.val = 0 ∧ (ip.seg 255).next.addr < 2 ^ 24 ∧
      (ip.seg 255).next.host = ((ip.seg 0).host + 256) % 2 ^ 32 := by
  have hzero := ip.seg_zero_host
  have hnext : (ip.seg 255).next = Ip4.ofHost (((ip.seg 0).host + 256) % 2 ^ 32) := by
    rw [Ip4.next, ip.seg_host (by decide)]
  have hd : (ip.seg 255).next.d.val = 0 := by
    rw [hnext, Ip4.ofHost, Fin.val_ofNat]
    omega
  refine ⟨hd, ?_, ?_⟩
  · rw [Ip4.addr, hd]
    omega
  · rw [hnext, Ip4.host_ofHost, Nat.mod_mod]

theorem Ip4.eq_zero_of_addr {ip : Ip4} (h : ip.addr = 0) : ip = ⟨0, 0, 0, 0⟩ := by
  obtain ⟨a, b, c, d⟩ := ip
  simp only [Ip4.addr] at h
  simp only [Ip4.mk.injEq, Fin.ext_iff, Fin.val_zero]
  omega

section Overflow

variable {ip : Ip4} {r : LeaseRange} {lo : Nat} {t : Server}

section

variable (hrange : RangeIn ip r lo 255) (h : Full ip r t)
include hrange h

theorem Full.endIp_addr : 2 ^ 24 ≤ t.poll.endIp.addr := by
  rw [h.poll, hrange.endIp, ip.seg_addr (by decide)]
  omega

theorem Full.choose_next :
    t.choose (clientMsg 1 4) = { t with
      renew := false
      clientAddress := (ip.seg 255).next
      clientAddressPlus := t.plusAfter (ip.seg 255).next
      plist := nodeInsertToList ⟨(ip.seg 255).next, [4], t.newTimer⟩ t.plist } := by
  obtain ⟨c, hlist, hcip, hmac, -⟩ := h.plist
  have haddr := ip.next_last.2.1
  have hend := h.endIp_addr hrange
  have hwalk : walk (clientMsg 1 4).mac t.plist t.startWalk = t.startWalk.pass c := by
    rw [hlist, walk, if_neg (show ¬ c.mac = (clientMsg 1 4).mac from hmac), walk]
  have hmeets : c.ip = t.startWalk.plus := hcip.trans h.plus.symm
  have hcand : t.candidate (t.startWalk.pass c) = (ip.seg 255).next := by
    have hplus : (t.startWalk.pass c).plus = (ip.seg 255).next := by
      rw [Walk.pass_plus, if_pos hmeets, ← hmeets, hcip]
    unfold Server.candidate
    rw [hplus, if_neg (by omega), if_neg (by simp [hlist]), Walk.pass_client, if_pos hmeets,
      ← hmeets, hcip]
  unfold Server.choose
  dsimp only
  rw [hwalk, Walk.pass_found]
  unfold Server.newLease
  rw [hcand, if_neg (by omega)]
  rfl

theorem Full.refuses_zero (hzero : (ip.seg 255).next.addr = 0) :
    (t.parseMsg (clientMsg 1 4)).2.plist = t.plist ∧ (t.parseMsg (clientMsg 1 4)).2.poll = t.poll ∧
      (t.parseMsg (clientMsg 1 4)).2.clientAddressPlus = ⟨0, 0, 0, 1⟩ := by
  obtain ⟨c, hlist, -, hmac, -⟩ := h.plist
  have hend := h.endIp_addr hrange
  have hnotend : (⟨0, 0, 0, 0⟩ : Ip4) ≠ t.poll.endIp := fun heq => by
    rw [← heq] at hend
    exact absurd hend (by decide)
  have hmsg : t.parseMsg (clientMsg 1 4) = (t.choose (clientMsg 1 4)).poolCheck (clientMsg 1 4) := rfl
  rw [hmsg, h.choose_next hrange]
  unfold Server.poolCheck
  rw [if_pos (.inr hzero)]
  refine ⟨?_, rfl, ?_⟩
  · exact remove_insert (p := ⟨_, [4], _⟩) (by simpa [hlist] using hmac)
  · simp only [Server.plusAfter, Ip4.eq_zero_of_addr hzero, if_neg hnotend]
    rfl

theorem Full.overflows_wrapped (hzero : (ip.seg 255).next.addr = 0) :
    ∃ u, run dhcpsStep t [.msg (clientMsg 1 4), .msg (clientMsg 1 5)] = some u ∧ ¬ LeasesRight u := by
  obtain ⟨c, hlist, hcip, -, hmac⟩ := h.plist
  obtain ⟨hulist, hupoll, huplus⟩ := h.refuses_zero hrange hzero
  have hwrap : (ip.seg 0).host + 256 = 2 ^ 32 := by
    obtain ⟨-, -, hhost⟩ := ip.next_last
    have hbase := ip.seg_zero_host.2
    rw [Ip4.eq_zero_of_addr hzero, show (⟨0, 0, 0, 0⟩ : Ip4).host = 0 from rfl] at hhost
    omega
  have hrun : dhcpsStep t (.msg (clientMsg 1 4)) = some (t.parseMsg (clientMsg 1 4)).2 := rfl
  generalize (t.parseMsg (clientMsg 1 4)).2 = u at *
  rw [hlist] at hulist
  have hfree : u.Free (clientMsg 1 5) := by
    refine ⟨by simp [hulist], ?_, ?_, ?_, ?_⟩
    · simp only [hulist, List.mem_singleton, forall_eq, hcip, huplus]
      intro heq
      have hlast := congrArg (fun y : Ip4 => y.d.val) heq
      simp [Ip4.seg] at hlast
    · simp only [hulist, List.mem_singleton, forall_eq]
      exact hmac
    · rw [huplus, hupoll]
      exact h.endIp_addr hrange
    · rw [huplus]
      decide
  obtain ⟨hvlist, hvpoll, -⟩ := Server.parseMsg_discover hfree
  refine ⟨_, run_cons.2 ⟨u, hrun, rfl⟩, fun hright => ?_⟩
  have hin := (hright.inPool ⟨u.clientAddressPlus, [5], u.newTimer⟩ (by
    rw [hvlist]
    exact (nodeInsertToList_perm _ u.plist).mem_iff.2 (.head _))).1
  rw [hvpoll, hupoll, h.poll, hrange.startIp, ip.seg_host (by have := hrange.le; omega)] at hin
  simp only [huplus] at hin
  have hone : (⟨0, 0, 0, 1⟩ : Ip4).host = 1 := rfl
  omega

theorem Full.overflows_next (hzero : (ip.seg 255).next.addr ≠ 0) :
    ∃ u, run dhcpsStep t [.msg (clientMsg 1 4)] = some u ∧ ¬ LeasesRight u := by
  obtain ⟨-, haddr, hhost⟩ := ip.next_last
  have hbase := ip.seg_zero_host.2
  have hend := h.endIp_addr hrange
  have hoffer := parseMsg_offer (h.choose_next hrange) (by dsimp only; omega) hzero
  refine ⟨_, congrArg some hoffer, fun hright => ?_⟩
  have hin := (hright.inPool ⟨(ip.seg 255).next, [4], t.newTimer⟩
    ((nodeInsertToList_perm _ t.plist).mem_iff.2 (.head _))).2
  simp only [h.poll] at hin
  rw [hrange.endIp, ip.seg_host (by decide), hhost] at hin
  -- without a wrap the address is greater than the end of the range
  have hnowrap : (ip.seg 0).host + 256 ≠ 2 ^ 32 := fun hwrap => by
    apply hzero
    rw [Ip4.next, ip.seg_host (by decide), show (ip.seg 0).host + 255 + 1 = 2 ^ 32 by omega]
    decide
  omega

theorem Full.overflows :
    ∃ es u, run dhcpsStep t es = some u ∧ ¬ LeasesRight u := by
  by_cases hzero : (ip.seg 255).next.addr = 0
  · obtain ⟨u, hrun, hwrong⟩ := h.overflows_wrapped hrange hzero
    exact ⟨_, u, hrun, hwrong⟩
  · obtain ⟨u, hrun, hwrong⟩ := h.overflows_next hrange hzero
    exact ⟨_, u, hrun, hwrong⟩

end

end Overflow

/-- Leases are distinct and in the pool in every state of every run exactly if the range does not
end with the last address of its segment. -/
theorem leases_right_iff (ip : Ip4) (r : LeaseRange) (leaseTime : Nat) :
    (∀ events, Always dhcpsStep LeasesRight (Server.dhcpsStart ip r leaseTime) events) ↔
      (dhcpsPollSet ip r).endIp.d ≠ 255 := by
  obtain ⟨lo, hi, hrange⟩ := dhcpsPollSet_rangeIn ip r
  have hlt := hrange.lt
  have hlast : (dhcpsPollSet ip r).endIp.d ≠ 255 ↔ hi ≠ 255 := by
    rw [hrange.endIp, Ne, Fin.ext_iff, Ip4.seg, Fin.val_ofNat, Nat.mod_eq_of_lt hlt]
    rfl
  rw [hlast]
  constructor
  · rintro hright rfl
    obtain ⟨es, t, hrun, hfull⟩ := reach_full leaseTime hrange
    obtain ⟨es', u, hrun', hwrong⟩ := hfull.overflows hrange
    exact hwrong ((hright (es ++ es')).final (run_append.2 ⟨t, hrun, hrun'⟩))
  · intro hne events
    exact (always_of_step (C := fun _ _ => True) (fun _ _ _ h _ hs' => h.step hs')
      (ServerHolds.start leaseTime hrange (by omega)) (along_of_forall fun _ _ => trivial)).imp
      fun _ h => h.right

theorem second_client_out_of_pool :
    let server : Ip4 := ⟨192, 168, 4, 1⟩
    let r : LeaseRange := ⟨true, ⟨192, 168, 4, 255⟩, ⟨192, 168, 4, 255⟩⟩
    let discover (b : Nat) : DhcpsEvent :=
      .msg ⟨true, ⟨0, 0, 0, 0⟩, [b, 2, 3, 4, 5, 6], fun i => [53, 1, 1, 255].getD i 0, 4⟩
    rangeKept server r = true ∧
    ∃ s, run dhcpsStep (Server.dhcpsStart server r 120) [discover 1, discover 2] = some s ∧
      s.plist.map (·.ip) = [⟨192, 168, 5, 0⟩, ⟨192, 168, 4, 255⟩] ∧ ¬ LeasesRight s := by
  intro server r discover
  refine ⟨by decide, ?_⟩
  have hrun : (run dhcpsStep (Server.dhcpsStart server r 120) [discover 1, discover 2]).map
      (fun s => (s.plist.map (·.ip), s.poll)) = some ([⟨192, 168, 5, 0⟩, ⟨192, 168, 4, 255⟩], r) := by
    decide +kernel
  obtain ⟨s, hs, hend⟩ := Option.map_eq_some_iff.1 hrun
  obtain ⟨hips, hpoll⟩ := Prod.mk.inj hend
  refine ⟨s, hs, hips, fun h => ?_⟩
  have hmem : (⟨192, 168, 5, 0⟩ : Ip4) ∈ s.plist.map (·.ip) := by simp [hips]
  obtain ⟨p, hp, hip⟩ := List.mem_map.1 hmem
  have hle := (h.inPool p hp).2
  rw [hip, hpoll] at hle
  exact absurd hle (by decide)

end EspIdf.Dhcps
