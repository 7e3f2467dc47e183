import EspIdf.Device.Runs
import EspIdf.Nvs.Api
import EspIdf.Nvs.LegalLoad

/-! Runs of the store, from any flash: every write only clears bits, as long as each `init` finds
sectors that `Page::load` judges rightly. -/

namespace EspIdf.Nvs

open EspIdf.Device
open Prog (bind_eq pure_eq ret)
open Function (update update_of_ne update_self)

theorem Ready.of_invalid (h : Ready p m) (hs : p.state = .invalid) : Ready p m' :=
  have hn : ¬ p.Open := by simp [Page.Open, hs]
  Page.ready_closed h.dvd h.ok hn (by simp [hs]) (h.closed hn).1 (h.closed hn).2

variable {item : Item} {frame : LoadFrame}

namespace PageManager

def all (pm : PageManager) : List Nat := pm.pageList ++ pm.freePageList

structure Good (pm : PageManager) (m : Bytes) : Prop where
  ready : ∀ i, Ready (pm.pages i) m
  base : ∀ i ∈ pm.all, (pm.pages i).baseAddress = (pm.baseSector + i) * sectorSize
  idle : ∀ i, i ∉ pm.all → (pm.pages i).state = .invalid
  nodup : pm.all.Nodup

structure Worked (pm : PageManager) (m : Bytes) (pm' : PageManager) (m' : Bytes) : Prop where
  good : Good pm' m'
  all : ∀ i ∈ pm.all, i ∈ pm'.all
  ne : pm.pageList ≠ [] → pm'.pageList ≠ []

structure Stayed (pm : PageManager) (m : Bytes) (pm' : PageManager) (m' : Bytes) : Prop
    extends Worked pm m pm' m' where
  pageList : pm'.pageList = pm.pageList

variable {pm pm' pm'' : PageManager} {m m' m'' : Bytes} {i j : Nat} {p : Page}

theorem Worked.trans (h : Worked pm m pm' m') (h' : Worked pm' m' pm'' m'') :
    Worked pm m pm'' m'' :=
  ⟨h'.good, fun i hi => h'.all i (h.all i hi), fun hne => h'.ne (h.ne hne)⟩

theorem Stayed.trans (h : Stayed pm m pm' m') (h' : Stayed pm' m' pm'' m'') :
    Stayed pm m pm'' m'' :=
  ⟨h.toWorked.trans h'.toWorked, h'.pageList.trans h.pageList⟩

theorem mem_all (hi : i ∈ pm.pageList) : i ∈ pm.all := List.mem_append_left _ hi

theorem back_mem (hne : pm.pageList ≠ []) : pm.back ∈ pm.pageList := by
  unfold back
  rw [List.getLastD_eq_getLast?, List.getLast?_eq_some_getLast hne]
  exact List.getLast_mem hne

namespace Good

section

variable (h : Good pm m)
include h

theorem stayed : Stayed pm m pm m := ⟨⟨h, fun _ hi => hi, fun hne => hne⟩, rfl⟩

theorem perm (hp : pm'.pages = pm.pages) (hb : pm'.baseSector = pm.baseSector)
    (hl : pm'.all.Perm pm.all) : Good pm' m where
  ready i := hp ▸ h.ready i
  base i hi := by
    rw [hp, hb]
    exact h.base i (hl.mem_iff.1 hi)
  idle i hi := by
    rw [hp]
    exact h.idle i fun hi' => hi (hl.mem_iff.2 hi')
  nodup := hl.nodup_iff.2 h.nodup

theorem elsewhere (hi : i ∈ pm.all) (hij : j ≠ i)
    (hout : ∀ x, x < (pm.pages i).baseAddress ∨ (pm.pages i).baseAddress + sectorSize ≤ x →
    m' x = m x) :
    Ready (pm.pages j) m' := by
  by_cases hj : j ∈ pm.all
  · refine (h.ready j).frame fun x h1 h2 => hout x ?_
    rw [h.base j hj] at h1 h2
    rw [h.base i hi]
    unfold sectorSize at *
    omega
  · exact (h.ready j).of_invalid (h.idle j hj)

theorem setPage (hi : i ∈ pm.all) (hm : Moved (pm.pages i) m p m') :
    Stayed pm m (pm.setPage i p) m' := by
  have hself : (pm.setPage i p).pages i = p := Function.update_self ..
  have hother : ∀ j, j ≠ i → (pm.setPage i p).pages j = pm.pages j :=
    fun j hj => Function.update_of_ne hj ..
  refine ⟨⟨⟨fun j => ?_, fun j hj => ?_, fun j hj => ?_, h.nodup⟩, fun _ hj => hj, fun hne => hne⟩,
    rfl⟩
  · by_cases hij : j = i
    · subst hij
      rw [hself]
      exact hm.ready
    · rw [hother j hij]
      exact h.elsewhere hi hij hm.out
  · by_cases hij : j = i
    · subst hij
      rw [hself, hm.base]
      exact h.base j hj
    · rw [hother j hij]
      exact h.base j hj
  · have hij : j ≠ i := fun hij => hj (hij ▸ hi)
    rw [hother j hij]
    exact h.idle j hj

theorem apart (hi : i ∈ pm.all) (hj : j ∈ pm.all) (hij : i ≠ j) :
    (pm.pages i).baseAddress + sectorSize ≤ (pm.pages j).baseAddress ∨
      (pm.pages j).baseAddress + sectorSize ≤ (pm.pages i).baseAddress := by
  rw [h.base i hi, h.base j hj]
  unfold sectorSize
  omega

theorem setBoth (hi : i ∈ pm.all) (hj : j ∈ pm.all) (hij : i ≠ j)
    (hm : Page.MovedBoth (pm.pages i) (pm.pages j) m p other m') :
    Stayed pm m ((pm.setPage i p).setPage j other) m' := by
  have hpj : ((pm.setPage i p).setPage j other).pages j = other := Function.update_self ..
  have hpi : ((pm.setPage i p).setPage j other).pages i = p :=
    (Function.update_of_ne hij ..).trans (Function.update_self ..)
  have hother : ∀ k, k ≠ i → k ≠ j → ((pm.setPage i p).setPage j other).pages k = pm.pages k :=
    fun k hki hkj => (Function.update_of_ne hkj ..).trans (Function.update_of_ne hki ..)
  refine ⟨⟨⟨fun k => ?_, fun k hk => ?_, fun k hk => ?_, h.nodup⟩, fun _ hk => hk, fun hne => hne⟩,
    rfl⟩
  · by_cases hkj : k = j
    · subst hkj
      rw [hpj]
      exact hm.ready'
    · by_cases hki : k = i
      · subst hki
        rw [hpi]
        exact hm.ready
      · rw [hother k hki hkj]
        by_cases hk : k ∈ pm.all
        · have hi' := h.apart hk hi hki
          have hj' := h.apart hk hj hkj
          exact (h.ready k).frame fun x h1 h2 => hm.out x (by omega) (by omega)
        · exact (h.ready k).of_invalid (h.idle k hk)
  · by_cases hkj : k = j
    · subst hkj
      rw [hpj, hm.base']
      exact h.base k hk
    · by_cases hki : k = i
      · subst hki
        rw [hpi, hm.base]
        exact h.base k hk
      · rw [hother k hki hkj]
        exact h.base k hk
  · rw [hother k (fun hki => hk (hki ▸ hi)) fun hkj => hk (hkj ▸ hj)]
    exact h.idle k hk

end

end Good

/-! ### Work on the pages -/

theorem activatePage_legal (h : Good pm m) : Legal (fun r m' => Worked pm m r.2 m' ∧
      (r.1 = .ok → ∃ i, i ∉ pm.pageList ∧ r.2.pageList = pm.pageList ++ [i]))
        pm.activatePage m := by
  simp only [activatePage, bind_eq, pure_eq]
  split
  · exact ⟨h.stayed.toWorked, by rintro ⟨⟩⟩
  · rename_i i rest hfree
    have hi : i ∈ pm.all := by
      unfold all
      rw [hfree]
      simp
    have hnot : i ∉ pm.pageList := by
      have := h.nodup
      unfold all at this
      rw [hfree, List.nodup_append] at this
      exact fun hmem => this.2.2 i hmem i (by simp) rfl
    have hend : ∀ p m', Moved (pm.pages i) m p m' →
        Worked pm m { ({ pm with freePageList := rest, pageList := pm.pageList ++ [i] } :
          PageManager).setPage i
          (p.setSeqNumber pm.seqNumber).2 with seqNumber := (pm.seqNumber + 1) % 2 ^ 32 } m' := by
      intro p m' hm
      have hgood := h.setPage hi (hm.trans (Page.setSeqNumber_kept hm.ready pm.seqNumber).toMoved)
      have hl : (({ pm with freePageList := rest, pageList := pm.pageList ++ [i] } :
          PageManager).all) =
          pm.all := by
        unfold all
        rw [hfree, List.append_assoc]
        rfl
      refine ⟨hgood.good.perm rfl rfl (.of_eq hl), fun j hj => ?_,
        fun _ => by simp [PageManager.setPage]⟩
      exact (congrArg (j ∈ ·) hl).mpr hj
    split
    · refine (Page.erase_legal (h.ready i)).bind ?_
      rintro ⟨err, p⟩ m' hm
      split
      · rename_i herr
        exact ⟨(h.setPage hi hm).toWorked, fun hok => absurd hok herr⟩
      · exact ⟨hend p m' hm, fun _ => ⟨i, hnot, rfl⟩⟩
    · exact ⟨hend _ m (h.ready i).kept.toMoved, fun _ => ⟨i, hnot, rfl⟩⟩

theorem lastItem_legal (hr : Ready p m) :
    Legal (fun r m' => Kept p m r.1 m') (lastItem rounds p itemIndex item any) m := by
  induction rounds generalizing p m itemIndex item any with
  | zero => trivial
  | succ rounds ih =>
    refine (Page.findItem_legal hr).bind ?_
    rintro found m' ⟨hk, -⟩
    split
    · exact (ih hk.ready).mono fun _ _ h => hk.trans h
    · exact hk

section

variable (h : Good pm m)
include h

theorem eraseDuplicate_legal (hjs : ∀ j ∈ js, j ∈ pm.all) :
    Legal (fun r m' => Stayed pm m r m') (pm.eraseDuplicate item keyAddr js) m := by
  induction js generalizing pm m with
  | nil => exact h.stayed
  | cons j js ih =>
    simp only [eraseDuplicate, bind_eq, pure_eq]
    refine (Page.eraseItem_legal (h.ready j)).bind fun r m' hk => ?_
    have hs := h.setPage (hjs j (by simp)) hk.toMoved
    split
    · exact hs
    · exact (ih hs.good fun j' hj' => hs.all j' (hjs j' (by simp [hj']))).mono fun _ _ h =>
        hs.trans h

theorem moveItems_legal (hs : src ∈ pm.all) (hd : dst ∈ pm.all) (hne : src ≠ dst) :
    Legal (fun r m' => Stayed pm m r.2 m') (pm.moveItems src dst rounds) m := by
  induction rounds generalizing pm m with
  | zero => trivial
  | succ rounds ih =>
    simp only [moveItems, bind_eq, pure_eq]
    refine (Page.moveItem_legal (h.apart hs hd hne) (h.ready src) (h.ready dst)).bind fun r m' hm =>
      ?_
    have hst := h.setBoth hs hd hne hm
    split
    · exact hst
    · split
      · exact hst
      · exact (ih hst.good (hst.all _ hs) (hst.all _ hd)).mono fun _ _ h => hst.trans h

theorem Good.free (hs : src ∈ pm.pageList) (hne : ∃ j ∈ pm.pageList, j ≠ src) :
    Worked pm m { pm with pageList := pm.pageList.erase src, freePageList := pm.freePageList ++
      [src] } m := by
  have hl : (({ pm with
      pageList := pm.pageList.erase src
      freePageList := pm.freePageList ++ [src] } : PageManager).all).Perm pm.all := by
    have h1 : (pm.pageList.erase src ++ (pm.freePageList ++ [src])).Perm
        (src :: (pm.pageList.erase src ++ pm.freePageList)) := by
      rw [← List.append_assoc]
      exact List.perm_append_singleton _ _
    exact h1.trans ((List.perm_cons_erase hs).symm.append_right pm.freePageList)
  obtain ⟨j, hj, hjs⟩ := hne
  exact ⟨h.perm rfl rfl hl, fun i hi => hl.mem_iff.2 hi,
    fun _ => List.ne_nil_of_mem ((List.mem_erase_of_ne hjs).2 hj)⟩

theorem freePage_legal (hs : src ∈ pm.pageList) (hne : ∃ j ∈ pm.pageList, j ≠ src) :
    Legal (fun r m' => Worked pm m r.2 m') (pm.freePage src) m := by
  simp only [freePage, bind_eq, pure_eq]
  refine (Page.erase_legal (h.ready src)).bind fun r m' hm => ?_
  have hst := h.setPage (mem_all hs) hm
  split
  · exact hst.toWorked
  · exact hst.toWorked.trans (hst.good.free hs hne)

theorem resumeFreeing_legal (hne : pm.pageList ≠ []) :
    Legal (fun r m' => Worked pm m r.2 m') pm.resumeFreeing m := by
  have hrest : ∀ src pm' m', Worked pm m pm' m' → src ∈ pm'.pageList → src ≠ pm'.back →
      Legal (fun r m' => Worked pm m r.2 m') ((pm'.moveItems src pm'.back loopRounds).bind fun r =>
        if r.1 ≠ .ok then ret (r.1, r.2) else r.2.freePage src) m' := by
    intro src pm' m' hw hsrc hback
    have hb := back_mem (hw.ne hne)
    refine (moveItems_legal hw.good (mem_all hsrc) (mem_all hb) hback).bind fun r m'' hst => ?_
    have hw' := hw.trans hst.toWorked
    split
    · exact hw'
    · refine (freePage_legal hst.good ?_ ⟨pm'.back, ?_, Ne.symm hback⟩).mono fun _ _ h =>
        hw'.trans h
      · rw [hst.pageList]
        exact hsrc
      · rw [hst.pageList]
        exact hb
  simp only [resumeFreeing, bind_eq, pure_eq]
  split
  · exact h.stayed.toWorked
  · rename_i src hfind
    have hsrc := List.mem_of_find?_eq_some hfind
    have hstate : (pm.pages src).state = .freeing := by simpa using List.find?_some hfind
    split
    · refine (activatePage_legal h).bind ?_
      rintro ⟨err, pm'⟩ m' ⟨hw, hact⟩
      split
      · exact hw
      · rename_i herr
        obtain ⟨i, hi, hlist⟩ := hact (by simpa using herr)
        have hlist : pm'.pageList = pm.pageList ++ [i] := hlist
        refine hrest src pm' m' hw ?_ ?_
        · rw [hlist]
          exact List.mem_append_left _ hsrc
        · have hb : pm'.back = i := by simp [back, hlist]
          rw [hb]
          exact fun hsi => hi (hsi ▸ hsrc)
    · rename_i hback
      refine hrest src pm m h.stayed.toWorked hsrc fun hsb => ?_
      rw [← hsb, hstate] at hback
      simp at hback

theorem dropOlderCopy_legal (hne : pm.pageList ≠ []) :
    Legal (fun r m' => Stayed pm m r m') (pm.dropOlderCopy keyAddr) m := by
  refine (lastItem_legal (h.ready _)).bind ?_
  rintro ⟨p, item⟩ m' hk
  have hst := h.setPage (mem_all (back_mem hne)) hk.toMoved
  cases item with
  | none => exact hst
  | some item =>
    exact (eraseDuplicate_legal hst.good fun j hj =>
      mem_all ((List.dropLast_sublist _).subset hj)).mono
      fun _ _ h => hst.trans h

end

/-! ### Loading -/

theorem good_empty (m : Bytes) (baseSector sectorCount : Nat) :
    Good ⟨fun _ => .new, [], [], baseSector, sectorCount, 0⟩ m := by
  have hready : Ready Page.new m := Page.ready_closed rfl EntryTable.fresh_ok
    (by simp [Page.Open, Page.new]) (by rintro ⟨⟩) rfl rfl
  exact ⟨fun _ => hready, fun _ hi => absurd hi List.not_mem_nil, fun _ _ => rfl, .nil⟩

theorem insertBySeq_perm (pages : Nat → Page) (i seqNumber : Nat) (js : List Nat) :
    (insertBySeq pages i seqNumber js).Perm (i :: js) := by
  induction js with
  | nil => exact .refl _
  | cons j js ih =>
    unfold insertBySeq
    split
    · exact .refl _
    · exact (ih.cons j).trans (.swap i j js)

theorem Good.add (h : Good pm m) (hi : i ∉ pm.all)
    (hm : Moved { Page.new with baseAddress := (pm.baseSector + i) * sectorSize } m p m')
    (hp : pm'.pages = update pm.pages i p) (hb : pm'.baseSector = pm.baseSector)
    (hl : pm'.all.Perm (i :: pm.all)) : Good pm' m' := by
  have hself : pm'.pages i = p := by rw [hp, update_self]
  have hother : ∀ j, j ≠ i → pm'.pages j = pm.pages j := fun j hj => by
    rw [hp, update_of_ne hj]
  refine ⟨fun j => ?_, fun j hj => ?_, fun j hj => ?_,
    hl.nodup_iff.2 (List.nodup_cons.2 ⟨hi, h.nodup⟩)⟩
  · by_cases hij : j = i
    · subst hij
      rw [hself]
      exact hm.ready
    · rw [hother j hij]
      by_cases hj : j ∈ pm.all
      · refine (h.ready j).frame fun x h1 h2 => hm.out x ?_
        rw [h.base j hj] at h1 h2
        show x < (pm.baseSector + i) * sectorSize ∨ (pm.baseSector + i) * sectorSize + sectorSize ≤
          x
        unfold sectorSize at *
        omega
      · exact (h.ready j).of_invalid (h.idle j hj)
  · by_cases hij : j = i
    · subst hij
      rw [hself, hb]
      exact hm.base
    · rw [hother j hij, hb]
      refine h.base j ?_
      rcases List.mem_cons.1 (hl.mem_iff.1 hj) with hji | hj'
      · exact absurd hji hij
      · exact hj'
  · have hj := fun h' => hj (hl.mem_iff.2 h')
    rw [hother j fun hij => hj (hij ▸ List.mem_cons_self ..)]
    exact h.idle j fun hj' => hj (List.mem_cons_of_mem _ hj')

theorem loadPages_legal (h : Good pm m) (hlt : ∀ j ∈ pm.all, j < i)
    (hc : ∀ j, i ≤ j → j < i + n → Checked m ((pm.baseSector + j) * sectorSize)) :
    Legal (fun r m' => Good r.2 m') (loadPages frame pm i n) m := by
  induction n generalizing pm m i with
  | zero => exact h
  | succ n ih =>
    refine (Page.load_legal (hc i (Nat.le_refl _) (by omega))).bind ?_
    rintro ⟨err, p⟩ m' ⟨herr, hm⟩
    obtain rfl : err = .ok := herr
    have hi : i ∉ pm.all := fun hi => Nat.lt_irrefl _ (hlt i hi)
    have hnext : ∀ pm' : PageManager, pm'.pages = update pm.pages i p →
        pm'.baseSector = pm.baseSector → pm'.all.Perm (i :: pm.all) →
        Legal (fun r m' => Good r.2 m') (loadPages frame pm' (i + 1) n) m' := by
      intro pm' hp hb hl
      refine ih (h.add hi hm hp hb hl) (fun j hj => ?_) fun j h1 h2 => ?_
      · rcases List.mem_cons.1 (hl.mem_iff.1 hj) with rfl | hj'
        · omega
        · have := hlt j hj'
          omega
      · rw [hb]
        refine (hc j (by omega) (by omega)).congr fun x h3 h4 => hm.out x ?_
        show x < (pm.baseSector + i) * sectorSize ∨ (pm.baseSector + i) * sectorSize + sectorSize ≤
          x
        unfold sectorSize at *
        omega
    simp only [ne_eq, not_true_eq_false, if_false]
    split
    · refine hnext _ rfl rfl ?_
      show (pm.pageList ++ (pm.freePageList ++ [i])).Perm (i :: (pm.pageList ++ pm.freePageList))
      rw [← List.append_assoc]
      exact List.perm_append_singleton _ _
    · exact hnext _ rfl rfl ((insertBySeq_perm _ _ _ _).append_right _)

theorem load_legal {baseSector sectorCount : Nat}
    (hc : ∀ j < sectorCount, Checked m ((baseSector + j) * sectorSize)) :
    Legal (fun r m' => Good r.2 m' ∧ (r.1 = .ok → r.2.pageList ≠ []))
      (load frame baseSector sectorCount) m := by
  have hstart := good_empty m baseSector sectorCount
  simp only [load, bind_eq, pure_eq]
  refine (loadPages_legal hstart (fun _ hi => absurd hi List.not_mem_nil) fun j _ hj =>
    hc j (by omega)).bind ?_
  rintro ⟨err, pm⟩ m' hg
  split
  · rename_i herr
    exact ⟨hg, fun hok => absurd hok herr⟩
  · split
    · refine (activatePage_legal hg).mono ?_
      rintro r m'' ⟨hw, hact⟩
      refine ⟨hw.good, fun hok => ?_⟩
      obtain ⟨i, -, hlist⟩ := hact hok
      rw [hlist]
      simp
    · rename_i hne
      split
      · trivial
      · rename_i lastSeqNo _
        have hg' : Good { pm with seqNumber := (lastSeqNo + 1) % 2 ^ 32 } m' :=
          hg.perm rfl rfl (.refl _)
        refine (dropOlderCopy_legal hg' hne).bind fun pm1 m1 hst => ?_
        have hne1 : pm1.pageList ≠ [] := hst.ne hne
        refine (resumeFreeing_legal hst.good hne1).bind fun r m2 hw => ?_
        have hne2 : r.2.pageList ≠ [] := hw.ne hne1
        split
        · exact ⟨hw.good, fun _ => hne2⟩
        · split
          · exact ⟨hw.good, fun _ => hne2⟩
          · exact ⟨hw.good, fun _ => hne2⟩

/-! ### A new page -/

theorem mostErased_mem {best : Option Nat} (h : pm.mostErased best k js = some src) : src ∈ js ∨
    best = some src := by
  induction js generalizing best k with
  | nil => exact .inr h
  | cons j js ih =>
    unfold mostErased at h
    split at h
    · rcases ih h with h' | h'
      · exact .inl (List.mem_cons_of_mem _ h')
      · exact .inl (by simp_all)
    · rcases ih h with h' | h'
      · exact .inl (List.mem_cons_of_mem _ h')
      · exact .inr h'

theorem reclaim_legal (h : Good pm m) (hsrc : src ∈ pm.pageList) :
    Legal (fun r m' => Worked pm m r.2 m') (pm.reclaim src) m := by
  simp only [reclaim, bind_eq, pure_eq]
  refine (activatePage_legal h).bind ?_
  rintro ⟨err, pm1⟩ m1 ⟨hw1, hact⟩
  split
  · exact hw1
  · rename_i herr
    obtain ⟨dst, hdst, hlist⟩ := hact (by simpa using herr)
    have hlist : pm1.pageList = pm.pageList ++ [dst] := hlist
    have hback : pm1.back = dst := by simp [back, hlist]
    have hs1 : src ∈ pm1.pageList := by
      rw [hlist]
      exact List.mem_append_left _ hsrc
    have hd1 : dst ∈ pm1.pageList := by simp [hlist]
    have hne : src ≠ dst := fun hsd => hdst (hsd ▸ hsrc)
    rw [hback]
    refine (Page.markFreeing_legal (hw1.good.ready src)).bind fun r2 m2 hm2 => ?_
    have hst2 := hw1.good.setPage (mem_all hs1) hm2
    have hw2 := hw1.trans hst2.toWorked
    split
    · exact hw2
    · refine (moveItems_legal hst2.good (mem_all hs1) (mem_all hd1) hne).bind fun r3 m3 hst3 => ?_
      have hw3 := hw2.trans hst3.toWorked
      have hs3 : src ∈ r3.2.pageList := by
        rw [hst3.pageList]
        exact hs1
      split
      · exact hw3
      · refine (Page.erase_legal (hst3.good.ready src)).bind fun r4 m4 hm4 => ?_
        have hst4 := hst3.good.setPage (mem_all hs3) hm4
        have hw4 := hw3.trans hst4.toWorked
        split
        · exact hw4
        · refine Prog.Keeps.assert fun _ => ?_
          refine hw4.trans (hst4.good.free hs3 ⟨dst, ?_, Ne.symm hne⟩)
          show dst ∈ r3.2.pageList
          rw [hst3.pageList]
          exact hd1

theorem requestNewPage_legal (h : Good pm m) :
    Legal (fun r m' => Worked pm m r.2 m') pm.requestNewPage m := by
  simp only [requestNewPage, pure_eq]
  split
  · exact h.stayed.toWorked
  · split
    · exact (activatePage_legal h).mono fun _ _ h => h.1
    · split
      · exact h.stayed.toWorked
      · rename_i src hsrc
        refine reclaim_legal h ?_
        rcases mostErased_mem hsrc with h' | h'
        · exact h'
        · simp at h'

end PageManager

/-! ### The store -/

namespace Storage

structure Worked (s : Storage) (m : Bytes) (s' : Storage) (m' : Bytes) : Prop where
  pages : s.pageManager.Worked m s'.pageManager m'
  state : s'.state = s.state

variable {s s' s'' : Storage} {m m' m'' : Bytes} {ns : UInt8} {dt : ItemType} {key : Key}

theorem Worked.trans (h : Worked s m s' m') (h' : Worked s' m' s'' m'') : Worked s m s'' m'' :=
  ⟨h.pages.trans h'.pages, h'.state.trans h.state⟩

section

variable (h : s.pageManager.Good m)
include h

theorem worked_self : Worked s m s m := ⟨h.stayed.toWorked, rfl⟩

theorem worked_setPage (hj : j ∈ s.pageManager.all)
    (hm : Moved (s.page j) m p m') : Worked s m (s.setPage j p) m' :=
  ⟨(h.setPage hj hm).toWorked, rfl⟩

theorem findOn_legal (hjs : ∀ j ∈ js, j ∈ s.pageManager.all) :
    Legal (fun r m' => Worked s m r.2.1 m' ∧ ∀ j, r.2.2.1 = some j → j ∈ s.pageManager.all)
      (s.findOn ns dt key item js) m := by
  induction js generalizing s m item with
  | nil => exact ⟨worked_self h, by rintro j ⟨⟩⟩
  | cons j js ih =>
    refine (Page.findItem_legal (h.ready j)).bind ?_
    rintro found m' ⟨hk, -⟩
    have hj := hjs j (by simp)
    have hw := worked_setPage h hj hk.toMoved
    split
    · refine ⟨hw, fun j' hj' => ?_⟩
      obtain rfl : j = j' := by simpa using hj'
      exact hj
    · exact (ih hw.pages.good fun j' hj' => hjs j' (by simp [hj'])).mono
        fun _ _ h => ⟨hw.trans h.1, h.2⟩

theorem findItem_legal :
    Legal (fun r m' => Worked s m r.2.1 m' ∧ ∀ j, r.2.2.1 = some j → j ∈ s.pageManager.all)
      (s.findItem ns dt key) m :=
  findOn_legal h fun _ hj => PageManager.mem_all hj

end

section Write

variable {data : List UInt8} (hdata : dt.varLength = false → data.length ≤ 8)
include hdata

theorem writeCurrent_legal (h : s.pageManager.Good m) (hne : s.pageManager.pageList ≠ []) :
    Legal (fun r m' => Moved (s.page s.currentPage) m r.2 m' ∧
      Worked s m (s.setPage s.currentPage r.2) m')
      ((s.page s.currentPage).writeItem ns dt key data) m :=
  (Page.writeItem_legal (h.ready _) hdata).mono fun _ _ hm =>
    ⟨hm, worked_setPage h (PageManager.mem_all (PageManager.back_mem hne)) hm⟩

theorem writeNew_legal (h : s.pageManager.Good m) (hne : s.pageManager.pageList ≠ []) :
    Legal (fun r m' => Worked s m r.2 m') (s.writeNew ns dt key data) m := by
  have hrest : ∀ s' m', Worked s m s' m' →
      Legal (fun r m' => Worked s m r.2 m') (s'.pageManager.requestNewPage.bind fun r =>
        if r.1 ≠ .ok then ret (r.1, s'.withManager r.2)
        else ((s'.withManager r.2).page (s'.withManager r.2).currentPage).writeItem ns dt key
          data |>.bind
          fun r' => ret (if r'.1 = .nvsPageFull then .nvsNotEnoughSpace else r'.1,
            (s'.withManager r.2).setPage (s'.withManager r.2).currentPage r'.2)) m' := by
    intro s' m' hw
    refine (PageManager.requestNewPage_legal hw.pages.good).bind fun r m'' hpm => ?_
    have hw' : Worked s m (s'.withManager r.2) m'' := hw.trans ⟨hpm, rfl⟩
    split
    · exact hw'
    · exact (writeCurrent_legal hdata hw'.pages.good (hw'.pages.ne hne)).bind
        fun r' m3 h3 => hw'.trans h3.2
  simp only [writeNew, bind_eq, pure_eq]
  refine (writeCurrent_legal hdata h hne).bind ?_
  rintro ⟨err, p⟩ m' ⟨hm, hw⟩
  have hself : (s.setPage s.currentPage p).page s.currentPage = p := update_self ..
  have hcur : s.currentPage ∈ (s.setPage s.currentPage p).pageManager.all :=
    PageManager.mem_all (PageManager.back_mem hne)
  split
  · exact hw
  · have hend : ∀ p' m'', Moved p m' p' m'' →
        Worked s m ((s.setPage s.currentPage p).setPage s.currentPage p') m'' :=
      fun p' m'' hm' => hw.trans (worked_setPage hw.pages.good hcur (by rw [hself]; exact hm'))
    split
    · refine (Page.markFull_legal hm.ready).bind ?_
      rintro ⟨err, p'⟩ m'' hm'
      split
      · exact hend p' m'' hm'
      · exact hrest _ m'' (hend p' m'' hm')
    · exact hrest _ m' (hend p m' hm.ready.kept.toMoved)

theorem writeItem_legal (h : s.pageManager.Good m)
    (hne : s.state = .active → s.pageManager.pageList ≠ []) :
    Legal (fun r m' => Worked s m r.2 m') (s.writeItem ns dt key data) m := by
  simp only [writeItem, bind_eq, pure_eq]
  split
  · exact worked_self h
  · rename_i hactive
    have hne := hne (by simpa using hactive)
    refine (findItem_legal h).bind ?_
    rintro ⟨err, s1, found, item⟩ m1 ⟨hw1, hfound⟩
    have hw1 : Worked s m s1 m1 := hw1
    split
    · exact hw1
    · refine (writeNew_legal hdata hw1.pages.good (hw1.pages.ne hne)).bind ?_
      rintro ⟨err, s2⟩ m2 hw2
      have hw2 : Worked s m s2 m2 := hw1.trans hw2
      split
      · exact hw2
      · cases found with
        | none => exact hw2
        | some j =>
          have hj : j ∈ s2.pageManager.all := hw2.pages.all j (hfound j rfl)
          have herase : ∀ s3 m3 j', Worked s m s3 m3 → j' ∈ s3.pageManager.all →
              Legal (fun r m' => Worked s m r.2 m')
                (((s3.page j').eraseItem ns dt (some key)).bind fun r =>
                ret (if r.1 = .flashOpFail then .nvsRemoveFailed else r.1, s3.setPage j' r.2))
                  m3 := by
            intro s3 m3 j' hw3 hj'
            exact (Page.eraseItem_legal (hw3.pages.good.ready j')).bind fun r m4 hk =>
              hw3.trans (worked_setPage hw3.pages.good hj' hk.toMoved)
          simp only [eraseOld, bind_eq, pure_eq]
          split
          · refine Prog.Keeps.bind (findItem_legal hw2.pages.good) ?_
            rintro ⟨err, s3, found, item⟩ m3 ⟨hw3, hfound3⟩
            have hw3' : Worked s m s3 m3 := hw2.trans hw3
            dsimp only
            split
            · exact herase s3 m3 _ hw3' (hw3.pages.all _ (hfound3 _ rfl))
            · trivial
          · exact herase s2 m2 j hw2 hj

end Write

/-! ### The other operations -/

section

variable (h : s.pageManager.Good m)
include h

theorem readItem_legal :
    Legal (fun r m' => Worked s m r.2.1 m') (s.readItem ns dt key buf) m := by
  simp only [readItem, bind_eq, pure_eq]
  split
  · exact worked_self h
  · refine (findItem_legal h).bind ?_
    rintro ⟨err, s1, found, item⟩ m1 ⟨hw, hfound⟩
    dsimp only
    split
    · refine (Page.readItem_legal (hw.pages.good.ready _)).bind fun r m2 hk => ?_
      exact hw.trans (worked_setPage hw.pages.good (hw.pages.all _ (hfound _ rfl)) hk.toMoved)
    · exact hw

theorem eraseItem_legal :
    Legal (fun r m' => Worked s m r.2 m') (s.eraseItem ns dt key) m := by
  simp only [eraseItem, bind_eq, pure_eq]
  split
  · exact worked_self h
  · refine (findItem_legal h).bind ?_
    rintro ⟨err, s1, found, item⟩ m1 ⟨hw, hfound⟩
    dsimp only
    split
    · refine (Page.eraseItem_legal (hw.pages.good.ready _)).bind fun r m2 hk => ?_
      exact hw.trans (worked_setPage hw.pages.good (hw.pages.all _ (hfound _ rfl)) hk.toMoved)
    · exact hw

theorem eraseNamespaceOn_legal (hj : j ∈ s.pageManager.all) :
    Legal (fun r m' => Worked s m r.2 m') (eraseNamespaceOn rounds s ns j) m := by
  induction rounds generalizing s m with
  | zero => trivial
  | succ rounds ih =>
    simp only [eraseNamespaceOn, bind_eq, pure_eq]
    refine (Page.eraseItem_legal (h.ready j)).bind fun r m' hk => ?_
    have hw := worked_setPage h hj hk.toMoved
    split
    · exact hw
    · split
      · exact hw
      · exact (ih hw.pages.good (hw.pages.all j hj)).mono fun _ _ h => hw.trans h

theorem eraseNamespacePages_legal (hjs : ∀ j ∈ js, j ∈ s.pageManager.all) :
    Legal (fun r m' => Worked s m r.2 m') (s.eraseNamespacePages ns js) m := by
  induction js generalizing s m with
  | nil => exact worked_self h
  | cons j js ih =>
    simp only [eraseNamespacePages, bind_eq, pure_eq]
    refine (eraseNamespaceOn_legal h (hjs j (by simp))).bind fun r m' hw => ?_
    split
    · exact hw
    · exact (ih hw.pages.good fun j' hj' => hw.pages.all j' (hjs j' (by simp [hj']))).mono
        fun _ _ h => hw.trans h

theorem eraseNamespace_legal :
    Legal (fun r m' => Worked s m r.2 m') (s.eraseNamespace ns) m := by
  simp only [eraseNamespace, pure_eq]
  split
  · exact worked_self h
  · exact eraseNamespacePages_legal h fun _ hj => PageManager.mem_all hj

theorem getItemDataSize_legal :
    Legal (fun r m' => Worked s m r.2.1 m') (s.getItemDataSize ns dt key) m := by
  simp only [getItemDataSize, bind_eq, pure_eq]
  split
  · exact worked_self h
  · refine (findItem_legal h).bind ?_
    rintro ⟨err, s1, found, item⟩ m1 ⟨hw, -⟩
    split
    · exact hw
    · exact hw

theorem createOrOpenNamespace_legal (hne : s.state = .active → s.pageManager.pageList ≠ []) :
    Legal (fun r m' => Worked s m r.2.1 m') (s.createOrOpenNamespace key canCreate) m := by
  simp only [createOrOpenNamespace, bind_eq, pure_eq]
  split
  · exact worked_self h
  · split
    · exact worked_self h
    · split
      · exact worked_self h
      · split
        · exact worked_self h
        · refine (writeItem_legal (fun _ => by simp) h hne).bind fun r m' hw => ?_
          split
          · exact hw
          · exact ⟨hw.pages, hw.state⟩

theorem loadNamespaces_legal (hj : j ∈ s.pageManager.all) :
    Legal (fun r m' => Worked s m r m') (loadNamespaces rounds s j itemIndex item) m := by
  induction rounds generalizing s m itemIndex item with
  | zero => trivial
  | succ rounds ih =>
    refine (Page.findItem_legal (h.ready j)).bind ?_
    rintro found m' ⟨hk, -⟩
    have hw := worked_setPage h hj hk.toMoved
    split
    · exact hw
    · refine Prog.Keeps.assert fun _ => ?_
      refine (ih ?_ ?_).mono fun _ _ h' => ⟨hw.pages.trans h'.pages, h'.state⟩
      · exact hw.pages.good
      · exact hw.pages.all j hj

theorem loadAllNamespaces_legal (hjs : ∀ j ∈ js, j ∈ s.pageManager.all) :
    Legal (fun r m' => Worked s m r m') (s.loadAllNamespaces js) m := by
  induction js generalizing s m with
  | nil => exact worked_self h
  | cons j js ih =>
    refine (loadNamespaces_legal h (hjs j (by simp))).bind fun r m' hw => ?_
    exact (ih hw.pages.good fun j' hj' => hw.pages.all j' (hjs j' (by simp [hj']))).mono
      fun _ _ h => hw.trans h

end

structure Good (s : Storage) (m : Bytes) : Prop where
  pages : s.pageManager.Good m
  ne : s.state = .active → s.pageManager.pageList ≠ []

theorem Worked.good (hw : Worked s m s' m') (h : Good s m) : Good s' m' :=
  ⟨hw.pages.good, fun hs => hw.pages.ne (h.ne (hw.state ▸ hs))⟩

theorem init_legal (hc : ∀ j < sectorCount, Checked m ((baseSector + j) * sectorSize)) :
    Legal (fun r m' => Good r.2 m') (init frame s baseSector sectorCount) m := by
  simp only [init, bind_eq, pure_eq]
  refine (PageManager.load_legal hc).bind ?_
  rintro ⟨err, pm⟩ m' ⟨hg, hne⟩
  split
  · exact ⟨hg, by rintro ⟨⟩⟩
  · rename_i herr
    refine (loadAllNamespaces_legal (s := { s.withManager pm with
      namespaces := []
      namespaceUsage := ⟨List.replicate 8 0⟩ }) hg fun _ hj => PageManager.mem_all hj).bind
        fun r m'' hw => ?_
    exact ⟨hw.pages.good, fun _ => hw.pages.ne (hne (by simpa using herr))⟩

end Storage

/-! ### Runs -/

/-- A call of `Storage`.  `writeItem` copies a value of a fixed-length type into the eight bytes of
an item's data: with more bytes than that the source's behaviour is undefined. -/
inductive StoreOp where
  | init (frame : LoadFrame) (baseSector sectorCount : Nat)
  | createOrOpenNamespace (nsName : Key) (canCreate : Bool)
  | writeItem (nsIndex : UInt8) (datatype : ItemType) (key : Key) (data : List UInt8)
      (fits : datatype.varLength = false → data.length ≤ 8)
  | readItem (nsIndex : UInt8) (datatype : ItemType) (key : Key) (buf : List UInt8)
  | getItemDataSize (nsIndex : UInt8) (datatype : ItemType) (key : Key)
  | eraseItem (nsIndex : UInt8) (datatype : ItemType) (key : Key)
  | eraseNamespace (nsIndex : UInt8)

namespace StoreOp

def prog (s : Storage) : StoreOp → WordProg Storage
  | init frame baseSector sectorCount => (s.init frame baseSector sectorCount).bind fun r =>
      .ret r.2
  | createOrOpenNamespace nsName canCreate =>
    (s.createOrOpenNamespace nsName canCreate).bind fun r => .ret r.2.1
  | writeItem nsIndex datatype key data _ =>
    (s.writeItem nsIndex datatype key data).bind fun r => .ret r.2
  | readItem nsIndex datatype key buf => (s.readItem nsIndex datatype key buf).bind fun r =>
      .ret r.2.1
  | getItemDataSize nsIndex datatype key =>
    (s.getItemDataSize nsIndex datatype key).bind fun r => .ret r.2.1
  | eraseItem nsIndex datatype key => (s.eraseItem nsIndex datatype key).bind fun r => .ret r.2
  | eraseNamespace nsIndex => (s.eraseNamespace nsIndex).bind fun r => .ret r.2

/-- The store and the flash after the call, unless it ends in a failed assertion. -/
def step (st : Storage × Bytes) (op : StoreOp) : Option (Storage × Bytes) :=
  Prog.run wordFlash (op.prog st.1) st.2

/-- An `init` finds sectors that `Page::load` judges rightly. -/
def FindsChecked (st : Storage × Bytes) : StoreOp → Prop
  | init _ baseSector sectorCount =>
    ∀ j < sectorCount, Checked st.2 ((baseSector + j) * sectorSize)
  | _ => True

variable {s : Storage} {m : Bytes}

theorem prog_legal (h : s.Good m) (op : StoreOp) (hop : op.FindsChecked (s, m)) :
    Legal (fun s' m' => s'.Good m') (op.prog s) m := by
  cases op with
  | init frame baseSector sectorCount => exact (Storage.init_legal hop).bind fun _ _ h' => h'
  | createOrOpenNamespace nsName canCreate =>
    exact (Storage.createOrOpenNamespace_legal h.pages h.ne).bind fun _ _ hw => hw.good h
  | writeItem nsIndex datatype key data fits =>
    exact (Storage.writeItem_legal fits h.pages h.ne).bind fun _ _ hw => hw.good h
  | readItem nsIndex datatype key buf =>
    exact (Storage.readItem_legal h.pages).bind fun _ _ hw => hw.good h
  | getItemDataSize nsIndex datatype key =>
    exact (Storage.getItemDataSize_legal h.pages).bind fun _ _ hw => hw.good h
  | eraseItem nsIndex datatype key =>
    exact (Storage.eraseItem_legal h.pages).bind fun _ _ hw => hw.good h
  | eraseNamespace nsIndex =>
    exact (Storage.eraseNamespace_legal h.pages).bind fun _ _ hw => hw.good h

end StoreOp

/-- The sector of an uninitialized page is blank, and so is the entry at `mNextFreeEntry` of an
active one. -/
structure BlankAhead (s : Storage) (m : Bytes) : Prop where
  uninitialized : ∀ i, (s.page i).state = .uninitialized →
    ∀ x < sectorSize, m ((s.page i).baseAddress + x) = 0xff
  active : ∀ i, (s.page i).state = .active → (s.page i).nextFreeEntry < entryCount →
    ∀ x < entrySize, m ((s.page i).baseAddress + entryDataOffset +
      (s.page i).nextFreeEntry * entrySize + x) = 0xff

theorem Storage.Good.blankAhead (h : s.Good m) : BlankAhead s m where
  uninitialized i := (h.pages.ready i).erased
  active i hs hlt x hx := by
    have hblank := (h.pages.ready i).blank (.inl hs)
    simp only [Storage.page, entryDataOffset, entrySize, entryCount, sectorSize] at *
    have := hblank (64 + (s.pageManager.pages i).nextFreeEntry * 32 + x) (by omega) (by omega)
    rwa [← Nat.add_assoc, ← Nat.add_assoc] at this

theorem Storage.good_new (m : Bytes) : Storage.new.Good m :=
  ⟨PageManager.good_empty m 0 0, by rintro ⟨⟩⟩

/-- From any flash: after any run of calls of the store in which each `init` finds sectors that
`Page::load` judges rightly, what is to be written next is blank, and the next such call writes no
word that would set a bit, whether or not it ends in a failed assertion. -/
theorem writes_legal_of_checked {m m' : Bytes} {s : Storage} {ops : List StoreOp}
    (hrun : Runs.run StoreOp.step (Storage.new, m) ops = some (s, m'))
    (hops : Runs.Along StoreOp.step (fun st op => op.FindsChecked st) (Storage.new, m) ops) :
    BlankAhead s m' ∧ ∀ op : StoreOp, op.FindsChecked (s, m') →
      Legal (fun _ _ => True) (op.prog s) m' := by
  have halways := Runs.always_of_step (I := fun st : Storage × Bytes => st.1.Good st.2)
    (fun st op st' h hop hstep => (StoreOp.prog_legal h op hop).run hstep) (Storage.good_new m) hops
  have hgood : s.Good m' := halways.final hrun
  exact ⟨hgood.blankAhead, fun op hop => (StoreOp.prog_legal hgood op hop).mono fun _ _ _ =>
    trivial⟩

/-- `init` on three sectors, and the write of a value. -/
def initThree : StoreOp := .init .adjacent 0 3

def writeByte : StoreOp := .writeItem 1 .U8 ⟨1, [107]⟩ [7] fun _ => by decide

theorem checked_blank (b : Nat) : Checked Bytes.blank b where
  blank _ _ _ := rfl
  free n hs := by
    have := hs.header
    rw [word32_blank (m := Bytes.blank) fun _ _ _ => rfl] at this
    simp [PageState.word] at this

theorem writes_legal_blank : ∃ s m, Runs.run StoreOp.step (Storage.new, Bytes.blank)
      [initThree, writeByte] = some (s, m) ∧ BlankAhead s m ∧
    Legal (fun _ _ => True) (writeByte.prog s) m := by
  have heval : (Runs.run StoreOp.step (Storage.new, Bytes.blank) [initThree, writeByte]).isSome =
      true := by
    decide +kernel
  obtain ⟨⟨s, m⟩, hrun⟩ := Option.isSome_iff_exists.1 heval
  obtain ⟨hahead, hlegal⟩ := writes_legal_of_checked hrun fun st _ =>
    ⟨fun j _ => checked_blank _, fun st' _ => ⟨trivial, trivial⟩⟩
  exact ⟨s, m, hrun, hahead, hlegal writeByte trivial⟩

def strayByte : Bytes := fun x => if x = 20 then 0 else 0xff

theorem stray_byte_write_sets_bits : ∃ s m,
    Runs.run StoreOp.step (Storage.new, strayByte) [initThree] = some (s, m) ∧
    (s.page 0).state = .uninitialized ∧ (s.page 0).baseAddress = 0 ∧ m 20 = 0 ∧
    ¬ Legal (fun _ _ => True) (writeByte.prog s) m := by
  have heval : (Runs.run StoreOp.step (Storage.new, strayByte) [initThree]).any (fun r =>
      (r.1.page 0).state = .uninitialized ∧ (r.1.page 0).baseAddress = 0 ∧ r.2 20 = 0 ∧
      ¬ Legal (fun _ _ => True) (writeByte.prog r.1) r.2) = true := by
    decide +kernel
  obtain ⟨⟨s, m⟩, hrun, heval⟩ := (Option.any_eq_true _ _).1 heval
  exact ⟨s, m, hrun, of_decide_eq_true heval⟩

end EspIdf.Nvs
