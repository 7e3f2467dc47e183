import Mathlib.Data.List.Induction

/-! The task watchdog of `task_wdt.c`: the list of tasks, the calls that feed and delete, and which
tasks have to report between two feeds of the hardware. -/

namespace EspIdf.TaskWdt

structure WdtTask where
  addr : Nat
  taskHandle : Nat
  fedWatchdog : Bool
  deriving DecidableEq, Repr

def markFed (handle : Nat) (list : List WdtTask) : List WdtTask :=
  list.map fun t => if t.taskHandle = handle then { t with fedWatchdog := true } else t

def resetFed : List WdtTask → List WdtTask
  | [] => []
  | [last] => [last]
  | t :: u :: rest => { t with fedWatchdog := false } :: resetFed (u :: rest)

/-- `esp_task_wdt_feed` called by the task `handle`, where a new entry lies at `newtask`: the list
and whether the hardware is fed. -/
def espTaskWdtFeed (list : List WdtTask) (handle newtask : Nat) : List WdtTask × Bool :=
  let foundTask := list.any (·.taskHandle = handle)
  let list := markFed handle list
  let doFeedWdt := list.all (·.fedWatchdog)
  let list := if foundTask then list else list ++ [⟨newtask, handle, true⟩]
  if doFeedWdt then (resetFed list, true) else (list, false)

def espTaskWdtDelete (list : List WdtTask) (handle : Nat) : List WdtTask :=
  match list with
  | [] => []
  | t :: rest =>
    -- the source compares the handle with the address of the first entry
    if handle = t.addr then rest
    else if t.taskHandle = handle then rest
    else t :: rest.eraseP (·.taskHandle = handle)

inductive Call where
  | feed (handle newtask : Nat)
  | delete (handle : Nat)
  deriving DecidableEq, Repr

def Call.handle : Call → Nat
  | feed handle _ => handle
  | delete handle => handle

def step (list : List WdtTask) : Call → List WdtTask
  | .feed handle newtask => (espTaskWdtFeed list handle newtask).1
  | .delete handle => espTaskWdtDelete list handle

def after (calls : List Call) : List WdtTask := calls.foldl step []

def Feeds (list : List WdtTask) : Call → Prop
  | .feed handle newtask => (espTaskWdtFeed list handle newtask).2 = true
  | .delete _ => False

instance (list : List WdtTask) (c : Call) : Decidable (Feeds list c) := by
  cases c <;> unfold Feeds <;> infer_instance

/-- No caller's handle is the address of an entry: the task's control block and the entry are two
allocations in use. -/
def Apart (calls : List Call) : Prop :=
  ∀ pre c post, calls = pre ++ c :: post → ∀ t ∈ after pre, c.handle ≠ t.addr

/-- The calls `a` and `b` feed the hardware and the calls `mid` between them do not. -/
structure Consecutive (calls pre mid : List Call) (a b : Call) : Prop where
  within : ∃ post, calls = pre ++ a :: (mid ++ b :: post)
  first : Feeds (after pre) a
  quiet : ∀ m c post, mid = m ++ c :: post → ¬ Feeds (after (pre ++ a :: m)) c
  second : Feeds (after (pre ++ a :: mid)) b

/-- The task `t` calls `esp_task_wdt_feed` or `esp_task_wdt_delete` after the first feed, at the
latest in the call `b`. -/
def Reports (t : Nat) (mid : List Call) (b : Call) : Prop :=
  ∃ c ∈ mid ++ [b], c.handle = t

/-- Between two consecutive feeds of the hardware each task on the list at the first of them, if it
does not delete itself, feeds. -/
def Noticed (calls : List Call) : Prop :=
  ∀ pre mid a b, Consecutive calls pre mid a b →
    ∀ t ∈ (after (pre ++ [a])).map (·.taskHandle), Call.delete t ∉ mid →
      ∃ newtask, Call.feed t newtask ∈ mid ++ [b]

/-- Between two consecutive feeds of the hardware the task at the end of the list reports. -/
def LastReports (calls : List Call) : Prop :=
  ∀ pre mid a b, Consecutive calls pre mid a b →
    ∀ last ∈ (after (pre ++ [a])).getLast?, Reports last.taskHandle mid b

/-! ### What one call keeps -/

def Unfed (t : Nat) (list : List WdtTask) : Prop :=
  ∃ n ∈ list, n.taskHandle = t ∧ n.fedWatchdog = false

theorem Unfed.markFed {t handle : Nat} (h : Unfed t list) (hne : handle ≠ t) :
    Unfed t (markFed handle list) := by
  obtain ⟨n, hn, rfl, hfed⟩ := h
  refine ⟨n, List.mem_map.2 ⟨n, hn, ?_⟩, rfl, hfed⟩
  rw [if_neg (Ne.symm hne)]

theorem Unfed.not_all (h : Unfed t list) : list.all (·.fedWatchdog) = false := by
  obtain ⟨n, hn, -, hfed⟩ := h
  rw [List.all_eq_false]
  exact ⟨n, hn, by simp [hfed]⟩

theorem Unfed.feed {t handle : Nat} (h : Unfed t list) (newtask : Nat) (hne : handle ≠ t) :
    (espTaskWdtFeed list handle newtask).2 = false ∧
      Unfed t (espTaskWdtFeed list handle newtask).1 := by
  have hmark := h.markFed hne
  simp only [espTaskWdtFeed, hmark.not_all, Bool.false_eq_true, if_false, true_and]
  split_ifs
  · exact hmark
  · obtain ⟨n, hn, hrest⟩ := hmark
    exact ⟨n, List.mem_append_left _ hn, hrest⟩

theorem Unfed.delete {t handle : Nat} (h : Unfed t list) (hne : handle ≠ t)
    (hapart : ∀ n ∈ list, handle ≠ n.addr) :
    Unfed t (espTaskWdtDelete list handle) := by
  obtain ⟨n, hn, rfl, hfed⟩ := h
  cases list with
  | nil => exact absurd hn List.not_mem_nil
  | cons first rest =>
    simp only [espTaskWdtDelete]
    rw [if_neg (hapart first List.mem_cons_self)]
    split_ifs with hfirst
    · rcases List.mem_cons.1 hn with rfl | hn
      · exact absurd hfirst.symm hne
      · exact ⟨n, hn, rfl, hfed⟩
    · rcases List.mem_cons.1 hn with rfl | hn
      · exact ⟨n, List.mem_cons_self, rfl, hfed⟩
      · refine ⟨n, List.mem_cons_of_mem _ ?_, rfl, hfed⟩
        exact (List.mem_eraseP_of_neg (by simpa using Ne.symm hne)).2 hn

theorem Unfed.step (h : Unfed t list) (hne : c.handle ≠ t)
    (hapart : ∀ n ∈ list, c.handle ≠ n.addr) :
    ¬ Feeds list c ∧ Unfed t (step list c) := by
  cases c with
  | feed handle newtask =>
    obtain ⟨hno, hkeep⟩ := h.feed newtask (show handle ≠ t from hne)
    exact ⟨by simp [Feeds, hno], hkeep⟩
  | delete handle => exact ⟨id, h.delete hne hapart⟩

theorem resetFed_unfed (list : List WdtTask) (t : Nat)
    (ht : t ∈ (resetFed list).map (·.taskHandle))
    (hlast : ∀ last ∈ (resetFed list).getLast?, last.taskHandle ≠ t) : Unfed t (resetFed list) := by
  fun_induction resetFed list with
  | case1 => simp at ht
  | case2 last =>
    simp only [List.map_cons, List.map_nil, List.mem_singleton] at ht
    exact absurd ht.symm (hlast last (by simp))
  | case3 first u rest ih =>
    rw [List.map_cons, List.mem_cons] at ht
    rcases ht with ht | ht
    · exact ⟨_, List.mem_cons_self, ht.symm, rfl⟩
    · have hne : resetFed (u :: rest) ≠ [] := by cases rest <;> simp [resetFed]
      obtain ⟨n, hn, hrest⟩ := ih ht fun last hl => hlast last (by
        obtain ⟨v, w, hvw⟩ := List.exists_cons_of_ne_nil hne
        rw [hvw] at hl ⊢
        simpa using hl)
      exact ⟨n, List.mem_cons_of_mem _ hn, hrest⟩

theorem espTaskWdtFeed_reset {handle newtask : Nat}
    (h : (espTaskWdtFeed list handle newtask).2 = true) :
    ∃ marked, (espTaskWdtFeed list handle newtask).1 = resetFed marked := by
  simp only [espTaskWdtFeed] at h ⊢
  split_ifs at h ⊢
  · exact ⟨_, rfl⟩
  · exact ⟨_, rfl⟩

theorem unfed_after_feeds (ha : Feeds list a) (t : Nat) (ht : t ∈ (step list a).map (·.taskHandle))
    (hlast : ∀ last ∈ (step list a).getLast?, last.taskHandle ≠ t) : Unfed t (step list a) := by
  cases a with
  | delete handle => exact absurd ha id
  | feed handle newtask =>
    obtain ⟨marked, hmarked⟩ := espTaskWdtFeed_reset ha
    simp only [step, hmarked] at ht hlast ⊢
    exact resetFed_unfed marked t ht hlast

/-! ### Rounds -/

theorem after_append (pre : List Call) (c : Call) (post : List Call) :
    after (pre ++ c :: post) = post.foldl step (step (after pre) c) := by
  simp [after]

theorem after_concat (pre : List Call) (c : Call) :
    after (pre ++ [c]) = step (after pre) c := after_append pre c []

theorem Apart.of_append {calls post : List Call} (h : Apart (calls ++ post)) : Apart calls :=
  fun pre c rest heq => h pre c (rest ++ post) (by simp [heq])

theorem unfed_of_silent (hapart : Apart (pre ++ mid)) (hunfed : Unfed t (after pre))
    (hsilent : ∀ c ∈ mid, c.handle ≠ t) :
    Unfed t (after (pre ++ mid)) := by
  induction mid using List.reverseRecOn with
  | nil => simpa using hunfed
  | append_singleton mid c ih =>
    rw [← List.append_assoc] at hapart ⊢
    have hmid := ih hapart.of_append fun c' hc' => hsilent c' (by simp [hc'])
    rw [after_concat]
    exact (hmid.step (hsilent c (by simp)) (hapart _ c [] rfl)).2

theorem reports_of_not_last {calls pre mid : List Call} (hapart : Apart calls)
    (hround : Consecutive calls pre mid a b) (ht : t ∈ (after (pre ++ [a])).map (·.taskHandle))
    (hlast : ∀ last ∈ (after (pre ++ [a])).getLast?, last.taskHandle ≠ t) : Reports t mid b := by
  by_contra hsilent
  have hsilent : ∀ c ∈ mid ++ [b], c.handle ≠ t := fun c hc heq => hsilent ⟨c, hc, heq⟩
  obtain ⟨post, rfl⟩ := hround.within
  have hparts : pre ++ a :: (mid ++ b :: post) = (pre ++ [a] ++ mid) ++ b :: post := by simp
  rw [hparts] at hapart
  rw [after_concat] at ht hlast
  have hstart := unfed_after_feeds hround.first t ht hlast
  rw [← after_concat] at hstart
  have hmid := unfed_of_silent hapart.of_append hstart fun c hc => hsilent c (by simp [hc])
  have hsecond := hround.second
  rw [show pre ++ a :: mid = pre ++ [a] ++ mid by simp] at hsecond
  exact (hmid.step (hsilent b (by simp)) (hapart _ b post rfl)).1 hsecond

theorem feeds_iff_reports {calls pre mid : List Call} (hround : Consecutive calls pre mid a b)
    (t : Nat) :
    (Call.delete t ∉ mid → ∃ newtask, Call.feed t newtask ∈ mid ++ [b]) ↔ Reports t mid b := by
  constructor
  · intro h
    by_cases hdel : Call.delete t ∈ mid
    · exact ⟨_, List.mem_append_left _ hdel, rfl⟩
    · obtain ⟨newtask, hmem⟩ := h hdel
      exact ⟨_, hmem, rfl⟩
  · rintro ⟨c, hc, rfl⟩ hdel
    cases c with
    | feed handle newtask => exact ⟨newtask, hc⟩
    | delete handle =>
      rcases List.mem_append.1 hc with hc | hc
      · exact absurd hc hdel
      · obtain rfl := List.mem_singleton.1 hc
        exact absurd hround.second id

/-- Every silent task is noticed exactly if the task at the end of the list, whose mark the reset
loop leaves set, reports between the feeds of the hardware. -/
theorem noticed_iff_lastReports (calls : List Call) (hapart : Apart calls) :
    Noticed calls ↔ LastReports calls := by
  constructor
  · intro h pre mid a b hround last hlast
    refine (feeds_iff_reports hround _).1 (h pre mid a b hround _ ?_)
    exact List.mem_map.2 ⟨last, List.mem_of_getLast? hlast, rfl⟩
  · intro h pre mid a b hround t ht
    refine (feeds_iff_reports hround t).2 ?_
    by_cases hlast : ∀ last ∈ (after (pre ++ [a])).getLast?, last.taskHandle ≠ t
    · exact reports_of_not_last hapart hround ht hlast
    · push Not at hlast
      obtain ⟨last, hl, rfl⟩ := hlast
      exact h pre mid a b hround last hl

theorem noticed_in_turn : Apart [.feed 1 100, .feed 2 101, .feed 2 102, .feed 1 103] ∧
    (Noticed [.feed 1 100, .feed 2 101, .feed 2 102, .feed 1 103] ↔
      LastReports [.feed 1 100, .feed 2 101, .feed 2 102, .feed 1 103]) := by
  have hapart : Apart [.feed 1 100, .feed 2 101, .feed 2 102, .feed 1 103] := by
    intro pre c post hcalls
    rcases pre with _ | ⟨_, _ | ⟨_, _ | ⟨_, _ | ⟨_, pre⟩⟩⟩⟩ <;>
      simp only [List.nil_append, List.cons_append, List.cons.injEq, List.nil_eq,
        List.append_eq_nil_iff, reduceCtorEq, and_false] at hcalls
    · obtain ⟨rfl, -⟩ := hcalls
      decide
    · obtain ⟨rfl, rfl, -⟩ := hcalls
      decide
    · obtain ⟨rfl, rfl, rfl, -⟩ := hcalls
      decide
    · obtain ⟨rfl, rfl, rfl, rfl, -⟩ := hcalls
      decide
  exact ⟨hapart, noticed_iff_lastReports _ hapart⟩

theorem silent_task_unnoticed : ¬ Noticed [.feed 1 100, .feed 2 101] := by
  intro h
  have hround : Consecutive [.feed 1 100, .feed 2 101] [] [] (.feed 1 100) (.feed 2 101) :=
    ⟨⟨[], rfl⟩, by decide, by simp, by decide⟩
  obtain ⟨newtask, hmem⟩ := h _ _ _ _ hround 1 (by decide) (by simp)
  simp at hmem

end EspIdf.TaskWdt
