import Mathlib.Data.List.Nodup

/-!
A queue of threads, the thread that runs, and threads that others have in hand:
taken from the queue and not yet switched to. A thread is live when it can run
again. As long as every switch leaves a thread that stays live, or one that has
nobody else in hand, no live thread is lost.
-/
namespace NekoOs.Custody
universe u

/-- `idle` runs when the queue is empty. -/
structure Threads (Thread : Type u) where
  running : Thread
  queue : List Thread
  idle : Thread
  holds : Thread → List Thread

section
variable {Thread : Type u}

/-- What a base leads to, from hand to hand. -/
inductive Reach (base : Thread → Prop) (holds : Thread → List Thread) : Thread → Prop
  | base {t : Thread} : base t → Reach base holds t
  | held {u t : Thread} : Reach base holds u → t ∈ holds u → Reach base holds t

namespace Threads

/-- The queue and the thread that runs lead to it. -/
def Top (k : Threads Thread) : Thread → Prop := Reach (fun t => t = k.running ∨ t ∈ k.queue) k.holds

/-- The queue, the thread that runs and the idle thread lead to it. -/
def Live (k : Threads Thread) : Thread → Prop := Reach (fun t => t = k.running ∨ t ∈ k.queue ∨ t = k.idle) k.holds

/-- A live thread is in one place. -/
structure Sound (k : Threads Thread) : Prop where
  queued : ∀ u t, k.Live u → t ∈ k.holds u → t ∉ k.queue
  single : ∀ u v t, k.Live u → k.Live v → t ∈ k.holds u → t ∈ k.holds v → u = v
  free : ∀ u, k.Live u → k.running ∉ k.holds u
  idle : ∀ u, k.Live u → k.idle ∈ k.holds u → k.Top u

/-- A step after which the thread that ran has these threads in hand. -/
structure Grasps (k k' : Threads Thread) (threads : List Thread) : Prop where
  idle : k'.idle = k.idle
  same : k'.holds k.running = threads
  other : ∀ u, u ≠ k.running → k'.holds u = k.holds u

variable {k k' : Threads Thread} {t u : Thread} {threads : List Thread}

theorem live_running : k.Live k.running := .base (.inl rfl)
theorem live_queue (waits : t ∈ k.queue) : k.Live t := .base (.inr (.inl waits))
theorem live_idle : k.Live k.idle := .base (.inr (.inr rfl))
theorem Live.held (live : k.Live u) (holds : t ∈ k.holds u) : k.Live t := Reach.held live holds
theorem top_running : k.Top k.running := .base (.inl rfl)
theorem top_queue (waits : t ∈ k.queue) : k.Top t := .base (.inr waits)
theorem Top.held (top : k.Top u) (holds : t ∈ k.holds u) : k.Top t := Reach.held top holds

theorem Top.live (top : k.Top t) : k.Live t := by
  induction top with
  | base root => exact .base (root.imp_right .inl)
  | held _ holds ih => exact .held ih holds

/-- The induction rule for live threads. -/
theorem Live.induct {P : Thread → Prop} (live : k.Live t) (running : P k.running) (queue : ∀ t ∈ k.queue, P t)
    (idle : P k.idle) (held : ∀ u t, k.Live u → P u → t ∈ k.holds u → P t) : P t := by
  induction live with
  | base root =>
    rcases root with rfl | waits | rfl
    · exact running
    · exact queue _ waits
    · exact idle
  | held live holds ih => exact held _ _ live ih holds

theorem Top.induct {P : Thread → Prop} (top : k.Top t) (running : P k.running) (queue : ∀ t ∈ k.queue, P t)
    (held : ∀ u t, k.Top u → P u → t ∈ k.holds u → P t) : P t := by
  induction top with
  | base root =>
    rcases root with rfl | waits
    · exact running
    · exact queue _ waits
  | held top holds ih => exact held _ _ top ih holds

/-- What is in hand after the step: the new threads, or what was in hand before. -/
theorem Grasps.cases (grasps : Grasps k k' threads) (holds : t ∈ k'.holds u) :
    u = k.running ∧ t ∈ threads ∨ u ≠ k.running ∧ t ∈ k.holds u := by
  by_cases same : u = k.running
  · subst same
    rw [grasps.same] at holds
    exact .inl ⟨rfl,holds⟩
  · rw [grasps.other u same] at holds
    exact .inr ⟨same,holds⟩

/-! ### Taking a thread from the queue -/

section
variable {rest : List Thread}

theorem take_back (grasps : Grasps k k' (t :: k.holds k.running)) (running : k'.running = k.running)
    (queue : k.queue = t :: k'.queue) (live : k'.Live u) : k.Live u := by
  refine live.induct ?_ ?_ ?_ ?_
  · rw [running]
    exact live_running
  · intro v waits
    exact live_queue (by rw [queue]; exact List.mem_cons_of_mem t waits)
  · rw [grasps.idle]
    exact live_idle
  · intro v w _ before holds
    rcases grasps.cases holds with ⟨rfl,member⟩ | ⟨_,held⟩
    · rcases List.mem_cons.mp member with rfl | held
      · exact live_queue (by rw [queue]; exact List.mem_cons_self)
      · exact before.held held
    · exact before.held held

/-- A thread in hand stays in hand. -/
theorem Grasps.keeps (grasps : Grasps k k' threads) (more : ∀ v ∈ k.holds k.running, v ∈ threads)
    (holds : t ∈ k.holds u) :
    t ∈ k'.holds u := by
  by_cases same : u = k.running
  · subst same
    rw [grasps.same]
    exact more t holds
  · rwa [grasps.other u same]

theorem take_top (grasps : Grasps k k' (t :: k.holds k.running)) (running : k'.running = k.running)
    (queue : k.queue = t :: k'.queue) (top : k.Top u) : k'.Top u := by
  have start : k'.Top k.running := running ▸ top_running
  refine top.induct start ?_ ?_
  · intro v waits
    rw [queue] at waits
    rcases List.mem_cons.mp waits with rfl | waits
    · exact start.held (by rw [grasps.same]; exact List.mem_cons_self)
    · exact top_queue waits
  · intro v w _ after holds
    exact after.held (grasps.keeps (fun _ => List.mem_cons_of_mem t) holds)

theorem take_live (grasps : Grasps k k' (t :: k.holds k.running)) (running : k'.running = k.running)
    (queue : k.queue = t :: k'.queue) (live : k.Live u) : k'.Live u := by
  refine live.induct (running ▸ live_running) ?_ (grasps.idle ▸ live_idle) ?_
  · intro v waits
    exact (take_top grasps running queue (top_queue waits)).live
  · intro v w _ after holds
    exact after.held (grasps.keeps (fun _ => List.mem_cons_of_mem t) holds)

theorem Sound.take (sound : k.Sound) (grasps : Grasps k k' (t :: k.holds k.running)) (running : k'.running = k.running)
    (queue : k.queue = t :: k'.queue) (distinct : k.queue.Nodup) (absent : k.running ∉ k.queue) : k'.Sound := by
  have back {v : Thread} (live : k'.Live v) : k.Live v := take_back grasps running queue live
  have waiting : t ∈ k.queue := by rw [queue]; exact List.mem_cons_self
  have alone (v : Thread) (live : k.Live v) : t ∉ k.holds v := fun holds => sound.queued v t live holds waiting
  have gone : t ∉ k'.queue := by
    rw [queue] at distinct
    exact (List.nodup_cons.mp distinct).1
  -- a thread in hand is the one taken, or it was in hand before
  have before {v w : Thread} (live : k'.Live v) (holds : w ∈ k'.holds v) : v = k.running ∧ w = t ∨ w ∈ k.holds v := by
    rcases grasps.cases holds with ⟨rfl,member⟩ | ⟨_,held⟩
    · exact (List.mem_cons.mp member).imp (fun same => ⟨rfl,same⟩) id
    · exact .inr held
  refine ⟨?_,?_,?_,?_⟩
  · intro v w live holds
    rcases before live holds with ⟨_,rfl⟩ | held
    · exact gone
    · intro waits
      exact sound.queued v w (back live) held (by rw [queue]; exact List.mem_cons_of_mem t waits)
  · intro v w x left right first second
    rcases before left first with ⟨rfl,rfl⟩ | one
    · rcases before right second with ⟨rfl,_⟩ | two
      · rfl
      · exact (alone w (back right) two).elim
    · rcases before right second with ⟨rfl,rfl⟩ | two
      · exact (alone v (back left) one).elim
      · exact sound.single v w x (back left) (back right) one two
  · intro v live holds
    rw [running] at holds
    rcases before live holds with ⟨_,same⟩ | held
    · exact absent (same ▸ waiting)
    · exact sound.free v (back live) held
  · intro v live holds
    rw [grasps.idle] at holds
    rcases before live holds with ⟨rfl,_⟩ | held
    · exact running ▸ top_running
    · exact take_top grasps running queue (sound.idle v (back live) held)

end

/-! ### A new thread -/

section

theorem gain_live (grasps : Grasps k k' (t :: k.holds k.running)) (running : k'.running = k.running)
    (queue : k'.queue = k.queue) (live : k.Live u) : k'.Live u := by
  refine live.induct (running ▸ live_running) ?_ (grasps.idle ▸ live_idle) ?_
  · intro v waits
    exact live_queue (queue ▸ waits)
  · intro v w _ after holds
    exact after.held (grasps.keeps (fun _ => List.mem_cons_of_mem t) holds)

theorem gain_top (grasps : Grasps k k' (t :: k.holds k.running)) (running : k'.running = k.running)
    (queue : k'.queue = k.queue) (top : k.Top u) : k'.Top u := by
  refine top.induct (running ▸ top_running) ?_ ?_
  · intro v waits
    exact top_queue (queue ▸ waits)
  · intro v w _ after holds
    exact after.held (grasps.keeps (fun _ => List.mem_cons_of_mem t) holds)

/-- A thread that nothing leads to, and that has nobody in hand. -/
theorem gain_back (grasps : Grasps k k' (t :: k.holds k.running)) (running : k'.running = k.running)
    (queue : k'.queue = k.queue) (new : ¬ k.Live t) (empty : k.holds t = []) (live : k'.Live u) :
    k.Live u ∨ u = t := by
  refine live.induct (P := fun v => k.Live v ∨ v = t) ?_ ?_ ?_ ?_
  · rw [running]
    exact .inl live_running
  · intro v waits
    exact .inl (live_queue (queue ▸ waits))
  · rw [grasps.idle]
    exact .inl live_idle
  · intro v w _ before holds
    rcases grasps.cases holds with ⟨rfl,member⟩ | ⟨_,held⟩
    · rcases List.mem_cons.mp member with rfl | held
      · exact .inr rfl
      · exact .inl (live_running.held held)
    · rcases before with live | rfl
      · exact .inl (live.held held)
      · rw [empty] at held
        cases held

theorem Sound.gain (sound : k.Sound) (grasps : Grasps k k' (t :: k.holds k.running)) (running : k'.running = k.running)
    (queue : k'.queue = k.queue) (new : ¬ k.Live t) (empty : k.holds t = []) : k'.Sound := by
  have before {v w : Thread} (live : k'.Live v) (holds : w ∈ k'.holds v) :
      v = k.running ∧ w = t ∨ k.Live v ∧ w ∈ k.holds v := by
    rcases grasps.cases holds with ⟨rfl,member⟩ | ⟨_,held⟩
    · exact (List.mem_cons.mp member).imp (fun same => ⟨rfl,same⟩) (fun held => ⟨live_running,held⟩)
    · rcases gain_back grasps running queue new empty live with live | rfl
      · exact .inr ⟨live,held⟩
      · rw [empty] at held
        cases held
  have alone {v : Thread} (live : k.Live v) : t ∉ k.holds v := fun holds => new (live.held holds)
  refine ⟨?_,?_,?_,?_⟩
  · intro v w live holds
    rw [queue]
    rcases before live holds with ⟨_,rfl⟩ | ⟨live,held⟩
    · exact fun waits => new (live_queue waits)
    · exact sound.queued v w live held
  · intro v w x left right first second
    rcases before left first with ⟨rfl,rfl⟩ | ⟨one,first⟩
    · rcases before right second with ⟨rfl,_⟩ | ⟨two,second⟩
      · rfl
      · exact (alone two second).elim
    · rcases before right second with ⟨rfl,rfl⟩ | ⟨two,second⟩
      · exact (alone one first).elim
      · exact sound.single v w x one two first second
  · intro v live holds
    rw [running] at holds
    rcases before live holds with ⟨_,same⟩ | ⟨live,held⟩
    · exact new (same ▸ live_running)
    · exact sound.free v live held
  · intro v live holds
    rw [grasps.idle] at holds
    rcases before live holds with ⟨_,same⟩ | ⟨live,held⟩
    · exact (new (same ▸ live_idle)).elim
    · exact gain_top grasps running queue (sound.idle v live held)

end

/-! ### Turning to the idle thread when the queue is empty -/

section

/-- With an empty queue, a thread that has at most the idle thread in hand leads to nothing else. -/
theorem top_alone (empty : k.queue = []) (hands : k.holds k.running = []) (top : k.Top u) : u = k.running := by
  refine top.induct (P := fun v => v = k.running) rfl ?_ ?_
  · intro v waits
    rw [empty] at waits
    cases waits
  · intro v w _ same holds
    rw [same,hands] at holds
    cases holds

theorem turn_back (grasps : Grasps k k' (k.idle :: k.holds k.running)) (running : k'.running = k.running)
    (queue : k'.queue = k.queue) (live : k'.Live u) : k.Live u := by
  refine live.induct (running ▸ live_running) ?_ (grasps.idle ▸ live_idle) ?_
  · intro v waits
    exact live_queue (queue ▸ waits)
  · intro v w _ before holds
    rcases grasps.cases holds with ⟨rfl,member⟩ | ⟨_,held⟩
    · rcases List.mem_cons.mp member with rfl | held
      · exact live_idle
      · exact before.held held
    · exact before.held held

theorem Sound.turn (sound : k.Sound) (grasps : Grasps k k' (k.idle :: k.holds k.running))
    (running : k'.running = k.running) (queue : k'.queue = k.queue) (empty : k.queue = [])
    (hands : ∀ v ∈ k.holds k.running, v = k.idle) (busy : k.running ≠ k.idle) :
    k'.Sound := by
  have back {v : Thread} (live : k'.Live v) : k.Live v := turn_back grasps running queue live
  have before {v w : Thread} (holds : w ∈ k'.holds v) : v = k.running ∧ w = k.idle ∨ w ∈ k.holds v := by
    rcases grasps.cases holds with ⟨rfl,member⟩ | ⟨_,held⟩
    · exact (List.mem_cons.mp member).imp (fun same => ⟨rfl,same⟩) id
    · exact .inr held
  -- nobody else has the idle thread in hand
  have only {v : Thread} (live : k.Live v) (holds : k.idle ∈ k.holds v) : v = k.running := by
    cases inHand : k.holds k.running with
    | nil => exact top_alone empty inHand (sound.idle v live holds)
    | cons w rest =>
      have first : w ∈ k.holds k.running := by rw [inHand]; exact List.mem_cons_self
      exact sound.single v k.running k.idle live live_running holds (hands w first ▸ first)
  refine ⟨?_,?_,?_,?_⟩
  · intro v w _ _
    rw [queue,empty]
    exact List.not_mem_nil
  · intro v w x left right first second
    rcases before first with ⟨rfl,rfl⟩ | one
    · rcases before second with ⟨rfl,_⟩ | two
      · rfl
      · exact (only (back right) two).symm
    · rcases before second with ⟨rfl,rfl⟩ | two
      · exact only (back left) one
      · exact sound.single v w x (back left) (back right) one two
  · intro v live holds
    rw [running] at holds
    rcases before holds with ⟨_,same⟩ | held
    · exact busy same
    · exact sound.free v (back live) held
  · intro v live holds
    rw [grasps.idle] at holds
    rcases before holds with ⟨rfl,_⟩ | held
    · exact running ▸ top_running
    · exact gain_top grasps running queue (sound.idle v (back live) held)

end

/-! ### Putting a thread into the queue -/

section

/-- A step that puts a live thread into the queue, out of the hands of all. -/
structure Puts (k k' : Threads Thread) (t : Thread) : Prop where
  running : k'.running = k.running
  idle : k'.idle = k.idle
  queue : k'.queue = k.queue ++ [t]
  live : k.Live t
  fewer : ∀ u v, v ∈ k'.holds u → v ∈ k.holds u
  rest : ∀ u v, v ∈ k.holds u → v = t ∨ v ∈ k'.holds u
  alone : ∀ u, k.Live u → t ∉ k'.holds u

theorem Puts.back (puts : Puts k k' t) (live : k'.Live u) : k.Live u := by
  refine live.induct (puts.running ▸ live_running) ?_ (puts.idle ▸ live_idle) ?_
  · intro v waits
    rw [puts.queue] at waits
    rcases List.mem_append.mp waits with waits | single
    · exact live_queue waits
    · exact List.mem_singleton.mp single ▸ puts.live
  · intro v w _ before holds
    exact before.held (puts.fewer v w holds)

theorem Puts.top (puts : Puts k k' t) (top : k.Top u) : k'.Top u := by
  have grown {v : Thread} (waits : v ∈ k.queue ++ [t]) : k'.Top v := top_queue (puts.queue ▸ waits)
  refine top.induct (puts.running ▸ top_running) ?_ ?_
  · intro v waits
    exact grown (List.mem_append_left _ waits)
  · intro v w _ after holds
    rcases puts.rest v w holds with rfl | held
    · exact grown (by simp)
    · exact after.held held

theorem Puts.keeps (puts : Puts k k' t) (live : k.Live u) : k'.Live u := by
  refine live.induct (puts.running ▸ live_running) ?_ (puts.idle ▸ live_idle) ?_
  · intro v waits
    exact (puts.top (top_queue waits)).live
  · intro v w _ after holds
    rcases puts.rest v w holds with rfl | held
    · exact live_queue (by rw [puts.queue]; simp)
    · exact after.held held

theorem Sound.put (sound : k.Sound) (puts : Puts k k' t) : k'.Sound := by
  refine ⟨?_,?_,?_,?_⟩
  · intro v w live holds waits
    rw [puts.queue] at waits
    rcases List.mem_append.mp waits with waits | single
    · exact sound.queued v w (puts.back live) (puts.fewer v w holds) waits
    · rw [List.mem_singleton.mp single] at holds
      exact puts.alone v (puts.back live) holds
  · intro v w x left right first second
    exact sound.single v w x (puts.back left) (puts.back right) (puts.fewer v x first) (puts.fewer w x second)
  · intro v live holds
    rw [puts.running] at holds
    exact sound.free v (puts.back live) (puts.fewer v _ holds)
  · intro v live holds
    rw [puts.idle] at holds
    exact puts.top (sound.idle v (puts.back live) (puts.fewer v _ holds))

/-- The thread that runs puts one that it has in hand. -/
theorem Sound.puts_held (sound : k.Sound) (grasps : Grasps k k' threads) (hands : k.holds k.running = t :: threads)
    (once : t ∉ threads) (running : k'.running = k.running) (queue : k'.queue = k.queue ++ [t]) : Puts k k' t := by
  have held : t ∈ k.holds k.running := by rw [hands]; exact List.mem_cons_self
  refine ⟨running,grasps.idle,queue,live_running.held held,?_,?_,?_⟩
  · intro v w holds
    rcases grasps.cases holds with ⟨rfl,member⟩ | ⟨_,holds⟩
    · rw [hands]
      exact List.mem_cons_of_mem t member
    · exact holds
  · intro v w holds
    by_cases same : v = k.running
    · subst same
      rw [hands] at holds
      rw [grasps.same]
      exact List.mem_cons.mp holds
    · exact .inr (by rwa [grasps.other v same])
  · intro v live holds
    rcases grasps.cases holds with ⟨_,member⟩ | ⟨other,holds⟩
    · exact once member
    · exact other (sound.single v k.running t live live_running holds held)

/-- The thread that runs puts itself. -/
theorem Sound.puts_running (sound : k.Sound) (grasps : Grasps k k' (k.holds k.running))
    (running : k'.running = k.running) (queue : k'.queue = k.queue ++ [k.running]) : Puts k k' k.running := by
  have same (v : Thread) : k'.holds v = k.holds v := by
    by_cases same : v = k.running
    · exact same ▸ grasps.same
    · exact grasps.other v same
  refine ⟨running,grasps.idle,queue,live_running,?_,?_,?_⟩
  · exact fun v w holds => same v ▸ holds
  · exact fun v w holds => .inr ((same v).symm ▸ holds)
  · intro v live
    rw [same v]
    exact sound.free v live

end

/-! ### Switching to a thread in hand -/

section

/-- A switch to a thread that the one that ran has in hand. The latter stays
    live, or it leaves nobody but the idle thread in its hands. -/
structure Switches (k k' : Threads Thread) (threads : List Thread) : Prop where
  grasps : Grasps k k' threads
  hands : k.holds k.running = k'.running :: threads
  queue : k'.queue = k.queue
  leaves : (k.running ∈ k.queue ∨ k.running = k.idle) ∧ k'.running ∉ threads ∨
    k.running ∉ k.queue ∧ k.running ≠ k.idle ∧ ∀ v ∈ threads, v = k.idle

theorem Switches.fewer (switches : Switches k k' threads) (holds : t ∈ k'.holds u) : t ∈ k.holds u := by
  rcases switches.grasps.cases holds with ⟨rfl,member⟩ | ⟨_,holds⟩
  · rw [switches.hands]
    exact List.mem_cons_of_mem _ member
  · exact holds

theorem Switches.held (switches : Switches k k' threads) : k'.running ∈ k.holds k.running := by
  rw [switches.hands]
  exact List.mem_cons_self

theorem Switches.back (switches : Switches k k' threads) (live : k'.Live u) : k.Live u := by
  refine live.induct (live_running.held switches.held) ?_ (switches.grasps.idle ▸ live_idle) ?_
  · intro v waits
    exact live_queue (switches.queue ▸ waits)
  · intro v w _ before holds
    exact before.held (switches.fewer holds)

/-- What was in hand runs now or is still in hand. -/
theorem Switches.rest (switches : Switches k k' threads) (holds : t ∈ k.holds u) : t = k'.running ∨ t ∈ k'.holds u := by
  by_cases same : u = k.running
  · subst same
    rw [switches.hands] at holds
    rw [switches.grasps.same]
    exact List.mem_cons.mp holds
  · exact .inr (by rwa [switches.grasps.other u same])

/-- Every other thread stays live. -/
theorem Switches.keeps (switches : Switches k k' threads) (live : k.Live u) :
    k'.Live u ∨ u = k.running ∧ k.running ∉ k.queue ∧ k.running ≠ k.idle := by
  have idle : k'.Live k.idle := switches.grasps.idle ▸ live_idle
  refine live.induct (P := fun u => k'.Live u ∨ u = k.running ∧ k.running ∉ k.queue ∧ k.running ≠ k.idle) ?_ ?_
    (.inl idle) ?_
  · rcases switches.leaves with ⟨waits | same,_⟩ | ⟨absent,busy,_⟩
    · exact .inl (live_queue (switches.queue ▸ waits))
    · exact .inl (same ▸ idle)
    · exact .inr ⟨rfl,absent,busy⟩
  · intro v waits
    exact .inl (live_queue (switches.queue ▸ waits))
  · intro v w _ after holds
    rcases after with after | ⟨rfl,absent,busy⟩
    · rcases switches.rest holds with rfl | held
      · exact .inl live_running
      · exact .inl (after.held held)
    · rcases switches.leaves with ⟨stays,_⟩ | ⟨_,_,hands⟩
      · exact (stays.elim absent busy).elim
      · rw [switches.hands] at holds
        rcases List.mem_cons.mp holds with rfl | member
        · exact .inl live_running
        · exact .inl (hands w member ▸ idle)

/-- The thread that ran is not live any more when it neither waits nor is idle. -/
theorem Switches.gone (switches : Switches k k' threads) (sound : k.Sound) (absent : k.running ∉ k.queue)
    (busy : k.running ≠ k.idle) (live : k'.Live u) : u ≠ k.running := by
  refine live.induct (P := fun u => u ≠ k.running) ?_ ?_ ?_ ?_
  · intro same
    exact sound.free k.running live_running (same ▸ switches.held)
  · rintro v waits rfl
    exact absent (switches.queue ▸ waits)
  · rw [switches.grasps.idle]
    exact busy.symm
  · rintro v w live _ holds rfl
    exact sound.free v (switches.back live) (switches.fewer holds)

theorem Sound.switch (sound : k.Sound) (switches : Switches k k' threads) : k'.Sound := by
  have back {v : Thread} (live : k'.Live v) : k.Live v := switches.back live
  refine ⟨?_,?_,?_,?_⟩
  · intro v w live holds
    rw [switches.queue]
    exact sound.queued v w (back live) (switches.fewer holds)
  · intro v w x left right first second
    exact sound.single v w x (back left) (back right) (switches.fewer first) (switches.fewer second)
  · intro v live holds
    obtain rfl := sound.single v k.running _ (back live) live_running (switches.fewer holds) switches.held
    rcases switches.leaves with ⟨_,once⟩ | ⟨absent,busy,_⟩
    · rw [switches.grasps.same] at holds
      exact once holds
    · exact switches.gone sound absent busy live rfl
  · intro v live holds
    rw [switches.grasps.idle] at holds
    have holder := switches.fewer holds
    have top := sound.idle v (back live) holder
    rcases switches.leaves with ⟨waits | same,_⟩ | ⟨absent,busy,hands⟩
    · refine top.induct (top_queue (switches.queue ▸ waits)) (fun w waits => top_queue (switches.queue ▸ waits)) ?_
      intro w x _ after holds
      rcases switches.rest holds with rfl | held
      · exact top_running
      · exact after.held held
    · -- nobody has the idle thread in hand while it runs
      rw [← same] at holder
      exact (sound.free v (back live) holder).elim
    · have other := switches.gone sound absent busy live
      refine (top.induct (P := fun w => w = k.running ∨ k'.Top w) (.inl rfl)
        (fun w waits => .inr (top_queue (switches.queue ▸ waits))) ?_).resolve_left other
      rintro w x _ (rfl | after) holds
      · rw [switches.hands] at holds
        rcases List.mem_cons.mp holds with rfl | member
        · exact .inr top_running
        · -- the thread on its way out is the only one with the idle thread in hand
          have idle : k.idle ∈ k.holds k.running := by
            rw [switches.hands]
            exact List.mem_cons_of_mem _ (hands x member ▸ member)
          exact (other (sound.single v k.running k.idle (back live) live_running holder idle)).elim
      · rcases switches.rest holds with rfl | held
        · exact .inr top_running
        · exact .inr (after.held held)

end

end Threads
end
end NekoOs.Custody
