import Mathlib.Data.List.Pairwise
import EspIdf.Lwip.DhcpServer

/-! The leases of a server whose range ends before the last address of its segment: raw words and
numbers then order the addresses alike, and the walk finds unused ones. -/

namespace EspIdf.Dhcps

/-- The library's instance by one name, for the numbers of `Fin 256` below. -/
theorem neZero_256 : NeZero 256 := Nat.instNeZeroSucc

attribute [local instance] neZero_256

namespace Ip4

/-- The address of the segment with the last byte `o`. -/
def seg (x : Ip4) (o : Nat) : Ip4 := { x with d := Fin.ofNat 256 o }

theorem seg_self (x : Ip4) : x.seg x.d = x := by
  simp [seg]

theorem seg_addr (x : Ip4) (ho : o < 256) : (x.seg o).addr = (x.seg 0).addr + 2 ^ 24 * o := by
  simp [addr, seg, Nat.mod_eq_of_lt ho]

theorem seg_host (x : Ip4) (ho : o < 256) : (x.seg o).host = (x.seg 0).host + o := by
  simp [host, seg, Nat.mod_eq_of_lt ho]

theorem seg_addr_lt (x : Ip4) (ho : o < 256) (hp : p < 256) : (x.seg o).addr < (x.seg p).addr ↔
    o < p := by
  rw [seg_addr x ho, seg_addr x hp]
  omega

theorem seg_inj (x : Ip4) (ho : o < 256) (hp : p < 256) : x.seg o = x.seg p ↔ o = p := by
  constructor
  · intro h
    have := congrArg (fun y : Ip4 => y.d.val) h
    simpa [seg, Nat.mod_eq_of_lt ho, Nat.mod_eq_of_lt hp] using this
  · rintro rfl
    rfl

theorem seg_next (x : Ip4) (ho : o < 255) : (x.seg o).next = x.seg (o + 1) := by
  have hhost : (x.seg o).host = 2 ^ 24 * x.a + 2 ^ 16 * x.b + 2 ^ 8 * x.c + o := by
    simp [host, seg, Nat.mod_eq_of_lt (show o < 256 by omega)]
  rw [next, hhost]
  simp only [ofHost, seg, Ip4.mk.injEq, Fin.ext_iff, Fin.val_ofNat]
  omega

theorem eq_seg_of_shift {x y : Ip4} (h : x.host >>> 8 = y.host >>> 8) : x = y.seg x.d := by
  obtain ⟨a, b, c, d⟩ := x
  simp only [host, Nat.shiftRight_eq_div_pow] at h
  simp only [seg, Ip4.mk.injEq, Fin.ext_iff, Fin.val_ofNat]
  omega

end Ip4

/-- The range goes from `lo` to `hi` in the segment of the server, which is not in it. -/
structure RangeIn (ip : Ip4) (r : LeaseRange) (lo hi : Nat) : Prop where
  startIp : r.startIp = ip.seg lo
  endIp : r.endIp = ip.seg hi
  le : lo ≤ hi
  lt : hi < 256
  len : hi ≤ lo + maxLease
  server : ip.d.val < lo ∨ hi < ip.d.val

theorem dhcpsPollSet_rangeIn (ip : Ip4) (r : LeaseRange) : ∃ lo hi,
    RangeIn ip (dhcpsPollSet ip r) lo hi := by
  have hd := ip.d.isLt
  unfold dhcpsPollSet
  split_ifs with hkept
  · simp only [rangeKept, Bool.and_eq_true, Bool.not_eq_true', Bool.and_eq_false_iff,
      decide_eq_true_eq, decide_eq_false_iff_not] at hkept
    obtain ⟨⟨⟨⟨-, hserver⟩, hstart⟩, hend⟩, hlen⟩ := hkept
    have hs := Ip4.eq_seg_of_shift hstart
    have he := Ip4.eq_seg_of_shift hend
    have hlo := r.startIp.d.isLt
    have hhi := r.endIp.d.isLt
    have hip : ip.host = (ip.seg 0).host + ip.d.val := by
      rw [← ip.seg_host hd, Ip4.seg_self]
    have hshost : r.startIp.host = (ip.seg 0).host + r.startIp.d.val := by
      rw [← ip.seg_host hlo, ← hs]
    have hehost : r.endIp.host = (ip.seg 0).host + r.endIp.d.val := by
      rw [← ip.seg_host hhi, ← he]
    rw [hshost, hehost, maxLease] at hlen
    refine ⟨r.startIp.d, r.endIp.d, Ip4.eq_seg_of_shift hstart, Ip4.eq_seg_of_shift hend, ?_,
      hhi, ?_, ?_⟩
    · omega
    · rw [maxLease]
      omega
    · omega
  · unfold defaultRange
    split_ifs with hhigh
    · refine ⟨ip.d - 0x64, ip.d - 0x64 + 0x64 - 1, rfl, rfl, by omega, by omega, ?_, by omega⟩
      rw [maxLease]
      omega
    · refine ⟨ip.d + 1, ip.d + 1 + 0x64 - 1, rfl, rfl, by omega, by omega, ?_, by omega⟩
      rw [maxLease]
      omega

/-! ### The lease list within a segment -/

structure Good (ip : Ip4) (lo hi : Nat) (l : List Lease) : Prop where
  sorted : l.Pairwise fun p q => p.ip.addr < q.ip.addr
  macs : (l.map (·.mac)).Nodup
  inSeg : ∀ p ∈ l, ∃ o, lo ≤ o ∧ o ≤ hi ∧ p.ip = ip.seg o

namespace Good

variable {ip : Ip4} {lo hi : Nat} {l l' : List Lease}

theorem nil : Good ip lo hi [] := ⟨.nil, .nil, by simp⟩

theorem sublist (h : Good ip lo hi l) (hsub : l'.Sublist l) : Good ip lo hi l' :=
  ⟨h.sorted.sublist hsub, h.macs.sublist (hsub.map _), fun p hp => h.inSeg p (hsub.subset hp)⟩

theorem of_maps (h : Good ip lo hi l) (hips : l'.map (·.ip) = l.map (·.ip))
    (hmacs : l'.map (·.mac) = l.map (·.mac)) : Good ip lo hi l' := by
  refine ⟨?_, hmacs ▸ h.macs, fun p hp => ?_⟩
  · have hsorted : (l.map (·.ip)).Pairwise fun x y => x.addr < y.addr :=
      List.pairwise_map.2 h.sorted
    rw [← hips] at hsorted
    exact (List.pairwise_map (f := fun p : Lease => p.ip)).1 hsorted
  · have hmem : p.ip ∈ l.map (·.ip) := hips ▸ List.mem_map_of_mem hp
    obtain ⟨q, hq, hqip⟩ := List.mem_map.1 hmem
    exact hqip ▸ h.inSeg q hq

theorem tail (h : Good ip lo hi (p :: l)) : Good ip lo hi l :=
  h.sublist (List.sublist_cons_self p l)

theorem head_lt (h : Good ip lo hi (p :: l)) (hq : q ∈ l) (ho : p.ip = ip.seg o)
    (ho' : q.ip = ip.seg o')
    (hlt : o < 256) (hlt' : o' < 256) : o < o' := by
  have := List.rel_of_pairwise_cons h.sorted hq
  rwa [ho, ho', Ip4.seg_addr_lt ip hlt hlt'] at this

end Good

theorem setTimer_maps (mac : List Nat) (timer : Nat) (l : List Lease) :
    (setTimer mac timer l).map (·.ip) = l.map (·.ip) ∧
      (setTimer mac timer l).map (·.mac) = l.map (·.mac) := by
  induction l with
  | nil => exact ⟨rfl, rfl⟩
  | cons p l ih =>
    unfold setTimer
    split_ifs
    · exact ⟨rfl, rfl⟩
    · simp [ih.1, ih.2]

theorem nodeInsertToList_perm (p : Lease) (l : List Lease) :
    (nodeInsertToList p l).Perm (p :: l) := by
  induction l with
  | nil => rfl
  | cons q l ih =>
    unfold nodeInsertToList
    split_ifs
    · rfl
    · exact (ih.cons q).trans (List.Perm.swap p q l)

theorem nodeInsertToList_sorted (hl : l.Pairwise fun p q => p.ip.addr < q.ip.addr)
    (hnew : ∀ q ∈ l, q.ip.addr ≠ p.ip.addr) :
    (nodeInsertToList p l).Pairwise fun p q => p.ip.addr < q.ip.addr := by
  induction l with
  | nil => exact List.pairwise_singleton _ _
  | cons q l ih =>
    have hq := List.pairwise_cons.1 hl
    unfold nodeInsertToList
    split_ifs with hlt
    · refine List.pairwise_cons.2 ⟨fun r hr => ?_, hl⟩
      rcases List.mem_cons.1 hr with rfl | hr
      · exact hlt
      · exact Nat.lt_trans hlt (hq.1 r hr)
    · refine List.pairwise_cons.2 ⟨fun r hr => ?_, ih hq.2 fun r hr => hnew r (.tail _ hr)⟩
      rcases List.mem_cons.1 ((nodeInsertToList_perm p l).mem_iff.1 hr) with rfl | hr
      · have := hnew q (.head _)
        omega
      · exact hq.1 r hr

theorem Good.insert (h : Good ip lo hi l) (hhi : hi < 256) (ho : p.ip = ip.seg o) (hlo : lo ≤ o)
    (hle : o ≤ hi) (hnew : ∀ q ∈ l, q.ip ≠ ip.seg o) (hmac : ∀ q ∈ l, q.mac ≠ p.mac) :
    Good ip lo hi (nodeInsertToList p l) := by
  have hperm := nodeInsertToList_perm p l
  refine ⟨nodeInsertToList_sorted h.sorted fun q hq heq => ?_, ?_, fun q hq => ?_⟩
  · obtain ⟨o', -, hle', ho'⟩ := h.inSeg q hq
    rw [ho, ho', Ip4.seg_addr ip (show o < 256 by omega),
      Ip4.seg_addr ip (show o' < 256 by omega)] at heq
    exact hnew q hq (ho'.trans (by rw [show o' = o by omega]))
  · refine (hperm.map (·.mac)).nodup_iff.2 (List.nodup_cons.2 ⟨fun hmem => ?_, h.macs⟩)
    obtain ⟨q, hq, hqmac⟩ := List.mem_map.1 hmem
    exact hmac q hq hqmac
  · rcases List.mem_cons.1 (hperm.mem_iff.1 hq) with rfl | hq
    · exact ⟨o, hlo, hle, ho⟩
    · exact h.inSeg q hq

/-! ### The walk -/

namespace Walk

variable (w : Walk) (p : Lease)

theorem movePlus_eq : (w.movePlus p).plus = (if p.ip = w.plus then w.plus.next else w.plus) ∧
    (w.movePlus p).client = (if p.ip = w.plus then w.plus.next else w.client) ∧
    (w.movePlus p).first = w.first ∧ (w.movePlus p).flag = w.flag ∧
    (w.movePlus p).found = w.found := by
  unfold movePlus
  split_ifs
  · exact ⟨rfl, rfl, rfl, rfl, rfl⟩
  · exact ⟨rfl, rfl, rfl, rfl, rfl⟩

theorem moveFirst_eq : (w.moveFirst p).plus = w.plus ∧ (w.moveFirst p).client = w.client ∧
    (w.moveFirst p).found = w.found ∧
    (w.moveFirst p).flag = (w.flag || w.first.addr < p.ip.addr) ∧
    (w.moveFirst p).first =
      if w.flag = true ∨ w.first.addr < p.ip.addr then w.first else w.first.next := by
  by_cases hflag : w.flag = true
  · simp [moveFirst, hflag]
  · by_cases hlt : w.first.addr < p.ip.addr
    · simp [moveFirst, hflag, hlt]
    · simp [moveFirst, hflag, hlt]

theorem pass_plus : (w.pass p).plus = if p.ip = w.plus then w.plus.next else w.plus :=
  ((w.movePlus p).moveFirst_eq p).1.trans (w.movePlus_eq p).1

theorem pass_client : (w.pass p).client = if p.ip = w.plus then w.plus.next else w.client :=
  ((w.movePlus p).moveFirst_eq p).2.1.trans (w.movePlus_eq p).2.1

theorem pass_found : (w.pass p).found = w.found :=
  ((w.movePlus p).moveFirst_eq p).2.2.1.trans (w.movePlus_eq p).2.2.2.2

theorem pass_flag : (w.pass p).flag = (w.flag || w.first.addr < p.ip.addr) := by
  obtain ⟨-, -, hfirst, hflag, -⟩ := w.movePlus_eq p
  rw [pass, ((w.movePlus p).moveFirst_eq p).2.2.2.1, hfirst, hflag]

theorem pass_first : (w.pass p).first =
    if w.flag = true ∨ w.first.addr < p.ip.addr then w.first else w.first.next := by
  obtain ⟨-, -, hfirst, hflag, -⟩ := w.movePlus_eq p
  rw [pass, ((w.movePlus p).moveFirst_eq p).2.2.2.2, hfirst, hflag]

end Walk

theorem walk_found (mac : List Nat) (l : List Lease) (w : Walk) (hw : w.found = none) :
    (walk mac l w).found = l.find? (·.mac = mac) := by
  induction l generalizing w with
  | nil => exact hw
  | cons p l ih =>
    unfold walk
    by_cases hmac : p.mac = mac
    · simp [hmac]
    · rw [if_neg hmac, ih (w.pass p) (by rw [w.pass_found, hw])]
      simp [hmac]

theorem walk_client {mac : List Nat} (hw : w.found = none) (hclient : w.client = w.plus)
    (hnone : (walk mac l w).found = none) :
    (walk mac l w).client = (walk mac l w).plus := by
  induction l generalizing w with
  | nil => exact hclient
  | cons p l ih =>
    unfold walk at hnone ⊢
    by_cases hmac : p.mac = mac
    · simp [hmac] at hnone
    · rw [if_neg hmac] at hnone ⊢
      refine ih (by rw [w.pass_found, hw]) ?_ hnone
      rw [w.pass_client, w.pass_plus, hclient]

theorem walk_plus (hhi : hi < 255) (mac : List Nat) (hl : Good ip lo hi l) (hw : w.plus = ip.seg o)
    (ho : o ≤ hi + 1) :
    ∃ o', (walk mac l w).plus = ip.seg o' ∧ o ≤ o' ∧
      (o' = o ∨ ∃ q ∈ l, ∃ x, q.ip = ip.seg x ∧ x ≤ hi ∧ o' = x + 1) ∧
      ((walk mac l w).found = none → ∀ q ∈ l, q.ip ≠ ip.seg o') := by
  induction l generalizing w o with
  | nil => exact ⟨o, hw, le_rfl, .inl rfl, by simp⟩
  | cons p l ih =>
    unfold walk
    by_cases hmac : p.mac = mac
    · rw [if_pos hmac]
      exact ⟨o, hw, le_rfl, .inl rfl, by simp⟩
    · rw [if_neg hmac]
      obtain ⟨x, hlo, hx, hpx⟩ := hl.inSeg p (.head _)
      have hgreater : ∀ q ∈ l, ∀ y, q.ip = ip.seg y → y ≤ hi → x < y := fun q hq y hy hyhi =>
        hl.head_lt hq hpx hy (by omega) (by omega)
      by_cases hmeets : p.ip = w.plus
      · -- the lease has the candidate: the next address is tried
        have hxo : x = o := (ip.seg_inj (by omega) (by omega)).1 (hpx.symm.trans (hmeets.trans hw))
        subst hxo
        have hplus : (w.pass p).plus = ip.seg (x + 1) := by
          rw [w.pass_plus, if_pos hmeets, hw, ip.seg_next (by omega)]
        obtain ⟨o', ho', hle, hcase, hfree⟩ := ih hl.tail hplus (by omega)
        refine ⟨o', ho', by omega, ?_, fun hnone q hq => ?_⟩
        · rcases hcase with rfl | ⟨q, hq, y, hy⟩
          · exact .inr ⟨p, .head _, x, hpx, hx, rfl⟩
          · exact .inr ⟨q, .tail _ hq, y, hy⟩
        · rcases List.mem_cons.1 hq with rfl | hq
          · intro heq
            have hbound : o' < 256 := by
              rcases hcase with rfl | ⟨_, _, y, _, hy, rfl⟩ <;> omega
            have := (ip.seg_inj (by omega) hbound).1 (hpx.symm.trans heq)
            omega
          · exact hfree hnone q hq
      · have hplus : (w.pass p).plus = ip.seg o := by
          rw [w.pass_plus, if_neg hmeets, hw]
        obtain ⟨o', ho', hle, hcase, hfree⟩ := ih hl.tail hplus ho
        refine ⟨o', ho', hle, ?_, fun hnone q hq => ?_⟩
        · rcases hcase with rfl | ⟨q, hq, y, hy⟩
          · exact .inl rfl
          · exact .inr ⟨q, .tail _ hq, y, hy⟩
        · rcases List.mem_cons.1 hq with rfl | hq
          · rcases hcase with rfl | ⟨r, hr, y, hry, hy, rfl⟩
            · rwa [← hw]
            · -- the candidate is past a later lease
              intro heq
              have := hgreater r hr y hry hy
              have := (ip.seg_inj (by omega) (by omega)).1 (hpx.symm.trans heq)
              omega
          · exact hfree hnone q hq

theorem walk_first_of_flag {mac : List Nat} (hw : w.flag = true) : (walk mac l w).first =
    w.first := by
  induction l generalizing w with
  | nil => rfl
  | cons p l ih =>
    unfold walk
    by_cases hmac : p.mac = mac
    · rw [if_pos hmac]
    · rw [if_neg hmac, ih (by simp [w.pass_flag, hw]), w.pass_first]
      simp [hw]

theorem walk_first (hhi : hi < 255) (mac : List Nat) (hl : Good ip lo hi l)
    (hw : w.first = ip.seg o)
    (ho : o ≤ hi + 1) (hflag : w.flag = false) (hbelow : ∀ q ∈ l, ∀ x, q.ip = ip.seg x →
    x ≤ hi → o ≤ x)
    (hnone : (walk mac l w).found = none) :
    ∃ o', (walk mac l w).first = ip.seg o' ∧ o ≤ o' ∧ o' ≤ hi + 1 ∧ ∀ q ∈ l, q.ip ≠ ip.seg o' := by
  induction l generalizing w o with
  | nil => exact ⟨o, hw, le_rfl, ho, by simp⟩
  | cons p l ih =>
    unfold walk at hnone ⊢
    by_cases hmac : p.mac = mac
    · simp [hmac] at hnone
    · rw [if_neg hmac] at hnone ⊢
      obtain ⟨x, hlo, hx, hpx⟩ := hl.inSeg p (.head _)
      have hox := hbelow p (.head _) x hpx hx
      have hgreater : ∀ q ∈ l, ∀ y, q.ip = ip.seg y → y ≤ hi → x < y := fun q hq y hy hyhi =>
        hl.head_lt hq hpx hy (by omega) (by omega)
      have hlt : w.first.addr < p.ip.addr ↔ o < x := by
        rw [hw, hpx, ip.seg_addr_lt (by omega) (by omega)]
      by_cases hgap : o < x
      · refine ⟨o, ?_, le_rfl, ho, fun q hq heq => ?_⟩
        · rw [walk_first_of_flag (by simp [w.pass_flag, hlt.2 hgap]), w.pass_first,
            if_pos (.inr (hlt.2 hgap)), hw]
        · obtain ⟨y, -, hy, hqy⟩ := hl.inSeg q hq
          have hyo := (ip.seg_inj (by omega) (by omega)).1 (hqy.symm.trans heq)
          rcases List.mem_cons.1 hq with rfl | hq
          · have := (ip.seg_inj (by omega) (by omega)).1 (hpx.symm.trans hqy)
            omega
          · have := hgreater q hq y hqy hy
            omega
      · have hxo : x = o := by omega
        subst hxo
        have hfirst : (w.pass p).first = ip.seg (x + 1) := by
          rw [w.pass_first, if_neg (by simp [hflag, hlt]), hw, ip.seg_next (by omega)]
        have hflag' : (w.pass p).flag = false := by
          simp [w.pass_flag, hflag, hlt]
        obtain ⟨o', ho', hle, hle', hfree⟩ := ih hl.tail hfirst (by omega) hflag'
          (fun q hq y hy hyhi => hgreater q hq y hy hyhi) hnone
        refine ⟨o', ho', by omega, hle', fun q hq => ?_⟩
        rcases List.mem_cons.1 hq with rfl | hq
        · intro heq
          have := (ip.seg_inj (by omega) (by omega)).1 (hpx.symm.trans heq)
          omega
        · exact hfree q hq

/-! ### Runs -/

structure ServerHolds (lo hi : Nat) (s : Server) : Prop where
  range : RangeIn s.serverAddress s.poll lo hi
  room : hi < 255
  plus : ∃ o, s.clientAddressPlus = s.serverAddress.seg o ∧ lo ≤ o ∧ o ≤ hi + 1
  leases : Good s.serverAddress lo hi s.plist

namespace ServerHolds

section

variable (h : ServerHolds lo hi s)
include h

theorem right : LeasesRight s := by
  have hlt := h.range.lt
  have hhost : s.plist.Pairwise fun p q => p.ip.host < q.ip.host := by
    refine h.leases.sorted.imp_of_mem fun {p q} hp hq hpq => ?_
    obtain ⟨o, -, ho, hpo⟩ := h.leases.inSeg p hp
    obtain ⟨o', -, ho', hqo⟩ := h.leases.inSeg q hq
    rw [hpo, hqo, Ip4.seg_addr_lt _ (by omega) (by omega)] at hpq
    rw [hpo, hqo, Ip4.seg_host _ (show o < 256 by omega), Ip4.seg_host _ (show o' < 256 by omega)]
    omega
  refine ⟨?_, h.leases.macs, hhost, fun p hp => ?_, fun p hp heq => ?_⟩
  · refine List.pairwise_map.2 (hhost.imp fun {p q} hpq heq => ?_)
    rw [heq] at hpq
    exact Nat.lt_irrefl _ hpq
  · obtain ⟨o, hlo, hhi, ho⟩ := h.leases.inSeg p hp
    rw [h.range.startIp, h.range.endIp, ho, Ip4.seg_host _ (show o < 256 by omega),
      Ip4.seg_host _ (show lo < 256 by omega), Ip4.seg_host _ hlt]
    omega
  · obtain ⟨o, hlo, hhi, ho⟩ := h.leases.inSeg p hp
    have hserver := h.range.server
    rw [ho] at heq
    have := (Ip4.seg_inj s.serverAddress (show o < 256 by omega) s.serverAddress.d.isLt).1
      (heq.trans (Ip4.seg_self _).symm)
    omega

theorem renewLease (m : Msg) :
    ServerHolds lo hi (s.renewLease m (walk m.mac s.plist s.startWalk) p) := by
  obtain ⟨o, ho, hlo, hle⟩ := h.plus
  obtain ⟨o', ho', hge, hcase, -⟩ := walk_plus h.room m.mac h.leases (w := s.startWalk) ho hle
  refine ⟨h.range, h.room, ⟨o', ho', by omega, ?_⟩, ?_⟩
  · rcases hcase with rfl | ⟨_, _, x, _, hx, rfl⟩ <;> omega
  · obtain ⟨hips, hmacs⟩ := setTimer_maps m.mac s.newTimer s.plist
    exact h.leases.of_maps hips hmacs

theorem candidate {m : Msg}
    (hnone : (walk m.mac s.plist s.startWalk).found = none) :
    ∃ o, s.candidate (walk m.mac s.plist s.startWalk) = s.serverAddress.seg o ∧ lo ≤ o ∧
      o ≤ hi + 1 ∧ ∀ q ∈ s.plist, q.ip ≠ s.serverAddress.seg o := by
  obtain ⟨o, ho, hlo, hle⟩ := h.plus
  have hroom := h.room
  obtain ⟨f, hf, hfge, hfle, hffree⟩ := walk_first h.room m.mac h.leases
    (w := s.startWalk) h.range.startIp (by omega) rfl (fun q hq x hx hxhi => by
      obtain ⟨y, hy, hyhi, hqy⟩ := h.leases.inSeg q hq
      have := (Ip4.seg_inj s.serverAddress (show x < 256 by omega)
        (show y < 256 by omega)).1 (hx.symm.trans hqy)
      omega) hnone
  unfold Server.candidate
  split_ifs with hpast hnil
  · exact ⟨f, hf, by omega, hfle, hffree⟩
  · exact ⟨lo, h.range.startIp, le_rfl, by omega, by simp [hnil]⟩
  · obtain ⟨o', ho', hge, hcase, hfree⟩ := walk_plus h.room m.mac h.leases
      (w := s.startWalk) ho hle
    refine ⟨o', (walk_client rfl rfl hnone).trans ho', by omega, ?_, hfree hnone⟩
    rcases hcase with rfl | ⟨_, _, x, _, hx, rfl⟩ <;> omega

theorem newLease (hnone : (walk m.mac s.plist s.startWalk).found = none) :
    ServerHolds lo hi (s.newLease m (walk m.mac s.plist s.startWalk)) := by
  obtain ⟨o, ho, hlo, hle, hfree⟩ := h.candidate hnone
  have hroom := h.room
  unfold Server.newLease
  dsimp only
  have hpast_iff := Ip4.seg_addr_lt s.serverAddress h.range.lt (show o < 256 by omega)
  rw [ho, h.range.endIp]
  split_ifs with hpast hend
  · exact ⟨h.range, h.room, ⟨lo, h.range.startIp, le_rfl, by omega⟩, h.leases⟩
  all_goals
    have hnew : Good s.serverAddress lo hi
        (nodeInsertToList ⟨s.serverAddress.seg o, m.mac, s.newTimer⟩ s.plist) := by
      refine h.leases.insert h.range.lt rfl hlo (by omega) hfree fun q hq hmac => ?_
      rw [walk_found m.mac s.plist s.startWalk rfl, List.find?_eq_none] at hnone
      exact hnone q hq (by simpa using hmac)
  · exact ⟨h.range, h.room, ⟨lo, h.range.startIp, le_rfl, by omega⟩, hnew⟩
  · exact ⟨h.range, h.room, ⟨o + 1, Ip4.seg_next _ (by omega), by omega, by omega⟩, hnew⟩

theorem withPlist (hsub : l.Sublist s.plist) :
    ServerHolds lo hi { s with plist := l } :=
  ⟨h.range, h.room, h.plus, h.leases.sublist hsub⟩

theorem parseMsg (m : Msg) : ServerHolds lo hi (s.parseMsg m).2 := by
  unfold Server.parseMsg
  split_ifs
  · have hchoose : ServerHolds lo hi (s.choose m) := by
      unfold Server.choose
      dsimp only
      split
      · exact h.renewLease m
      · rename_i hnone
        exact h.newLease hnone
    have hremoved := hchoose.withPlist (List.eraseP_sublist (p := (·.mac = m.mac)))
    unfold Server.poolCheck
    dsimp only
    split_ifs
    · exact hremoved
    · exact ⟨hremoved.range, hremoved.room, hremoved.plus, hremoved.leases⟩
    · exact hchoose
  · exact h

end

theorem killOldest_sublist (l : List Lease) : (killOldest l).Sublist l := by
  cases l with
  | nil => exact List.Sublist.refl _
  | cons p l => exact (List.eraseIdx_sublist l _).cons_cons p

theorem dhcpsCoarseTmr (h : ServerHolds lo hi s) : ServerHolds lo hi s.dhcpsCoarseTmr := by
  have hdec : Good s.serverAddress lo hi (s.plist.map Lease.countDown) :=
    h.leases.of_maps (List.map_map ..) (List.map_map ..)
  have hleft := hdec.sublist (List.filter_sublist (p := (·.leaseTimer ≠ 0)))
  unfold Server.dhcpsCoarseTmr
  dsimp only
  split_ifs
  · exact ⟨h.range, h.room, h.plus, hleft.sublist (killOldest_sublist _)⟩
  · exact ⟨h.range, h.room, h.plus, hleft⟩

theorem step (h : ServerHolds lo hi s) (hs' : dhcpsStep s e = some s') : ServerHolds lo hi s' := by
  cases e with
  | msg m =>
    cases hs'
    exact h.parseMsg m
  | tick =>
    cases hs'
    exact h.dhcpsCoarseTmr

theorem start (leaseTime : Nat) (hrange : RangeIn ip (dhcpsPollSet ip r) lo hi) (hroom : hi < 255) :
    ServerHolds lo hi (Server.dhcpsStart ip r leaseTime) :=
  ⟨hrange, hroom, ⟨lo, hrange.startIp, le_rfl, by have := hrange.le; omega⟩, Good.nil⟩

end ServerHolds

end EspIdf.Dhcps
