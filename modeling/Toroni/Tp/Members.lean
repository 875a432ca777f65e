import Mathlib.Data.List.Nodup
import Toroni.Tp.Positions

/-! The channel readers that a process has in its lists are different objects. -/
namespace Toroni.Tp.Pipeline
open Rmp Transition

def members (q : Process) : List ChannelReader := q.reader.channelReaders ++ waiting q.reader.serial

structure Distinct (clock : Nat) (q : Process) : Prop where
  distinct : ((members q).map ChannelReader.id).Nodup
  fresh : ∀ c ∈ members q, c.id < clock
  captured : ∀ captured ∈ q.reader.rmp,
    (captured.map ChannelReader.id).Nodup ∧ ∀ c ∈ captured, c.id < clock
  gone : ∀ id last, q.left id = some last → id < clock ∧ id ∉ (members q).map ChannelReader.id

def Holds (q : Process) (c : ChannelReader) : Prop :=
  c ∈ q.reader.channelReaders ∨ ∃ captured ∈ q.reader.rmp, c ∈ captured

section
variable {size : RingSize} {s t : State} {p : Nat}

theorem Distinct.mono {clock clock' : Nat} {q q' : Process} (distinct : Distinct clock q)
    (later : clock ≤ clock') (reader : q'.reader = q.reader) (left : q'.left = q.left) :
    Distinct clock' q' := by
  have same : members q' = members q := by simp only [members,reader]
  refine ⟨by rw [same]; exact distinct.distinct,fun c member => ?_,fun list member => ?_,
    fun id last found => ?_⟩
  · rw [same] at member
    exact (distinct.fresh c member).trans_le later
  · rw [reader] at member
    obtain ⟨apart,fresh⟩ := distinct.captured list member
    exact ⟨apart,fun c inside => (fresh c inside).trans_le later⟩
  · rw [left] at found
    rw [same]
    exact ⟨(distinct.gone id last found).1.trans_le later,(distinct.gone id last found).2⟩

/-- A process with other tasks, whose channel readers are some of those there were. -/
theorem Distinct.sublist {clock : Nat} {q q' : Process} (distinct : Distinct clock q)
    (fewer : (members q').Sublist (members q))
    (captured : ∀ captured ∈ q'.reader.rmp, captured ∈ q.reader.rmp ∨ captured = q.reader.channelReaders)
    (gone : ∀ id last, q'.left id = some last →
      q.left id = some last ∨ id < clock ∧ id ∉ (members q').map ChannelReader.id) : Distinct clock q' := by
  refine ⟨distinct.distinct.sublist (fewer.map _),fun c member => distinct.fresh c (fewer.subset member),
    fun list member => ?_,fun id last found => ?_⟩
  · rcases captured list member with old | rfl
    · exact distinct.captured list old
    · exact ⟨distinct.distinct.sublist ((List.sublist_append_left _ _).map _),
        fun c inside => distinct.fresh c (List.mem_append_left _ inside)⟩
  · rcases gone id last found with old | new
    · obtain ⟨bound,away⟩ := distinct.gone id last old
      exact ⟨bound,fun inside => away ((fewer.map _).subset inside)⟩
    · exact new

theorem Distinct.created {clock : Nat} {q q' : Process} {c : ChannelReader} (distinct : Distinct clock q)
    (new : c.id = clock) (grown : members q' = members q ++ [c]) (rmp : q'.reader.rmp = q.reader.rmp)
    (left : q'.left = q.left) : Distinct (clock + 1) q' := by
  refine ⟨?_,fun d member => ?_,fun list member => ?_,fun id last found => ?_⟩
  · rw [grown,List.map_append]
    refine List.nodup_append.mpr ⟨distinct.distinct,List.nodup_singleton _,fun id old id' same => ?_⟩
    obtain ⟨d,inside,rfl⟩ := List.mem_map.mp old
    have less := distinct.fresh d inside
    rw [List.mem_singleton.mp same,new]
    omega
  · rw [grown,List.mem_append,List.mem_singleton] at member
    rcases member with old | rfl
    · exact (distinct.fresh d old).trans (Nat.lt_succ_self _)
    · omega
  · rw [rmp] at member
    obtain ⟨apart,fresh⟩ := distinct.captured list member
    exact ⟨apart,fun d inside => (fresh d inside).trans (Nat.lt_succ_self _)⟩
  · rw [left] at found
    obtain ⟨bound,away⟩ := distinct.gone id last found
    refine ⟨bound.trans (Nat.lt_succ_self _),?_⟩
    rw [grown,List.map_append,List.mem_append,List.map_singleton,List.mem_singleton,new]
    rintro (inside | rfl)
    · exact away inside
    · omega

theorem distinct_kept {task : SerialTask ChannelReader} {rest : List (SerialTask ChannelReader)}
    (distinct : Distinct s.clock (s.process p)) (serial : (s.process p).reader.serial = task :: rest)
    (same : ∀ id, task ≠ .removeChannelReader id) :
    Distinct s.clock ((s.perform p rest task).process p) := by
  obtain ⟨serial',rmp,channelReaders⟩ := perform_reader s p rest task
  have left := perform_left s p rest task
  generalize (s.perform p rest task).process p = q at *
  have kept : members q = members (s.process p) := by
    rw [members,members,serial',serial,channelReaders]
    cases task with
    | addChannelReader c => simp [waiting]
    | removeChannelReader id => exact absurd rfl (same id)
    | run => rfl
  refine distinct.sublist (by rw [kept]) (fun list member => ?_) (fun id last found => Or.inl ?_)
  · rcases rmp with rmp | rmp
    · exact Or.inl (rmp ▸ member)
    · rw [rmp,List.mem_append,List.mem_singleton] at member
      exact member
  · cases task with
    | removeChannelReader id => exact absurd rfl (same id)
    | _ => rwa [left] at found

theorem distinct_removed {id : Nat} {rest : List (SerialTask ChannelReader)} (distinct : Distinct s.clock (s.process p))
    (serial : (s.process p).reader.serial = .removeChannelReader id :: rest) :
    Distinct s.clock ((s.perform p rest (.removeChannelReader id)).process p) := by
  obtain ⟨serial',rmp,channelReaders⟩ := perform_reader s p rest (.removeChannelReader id)
  have left := perform_left s p rest (.removeChannelReader id)
  generalize (s.perform p rest (.removeChannelReader id)).process p = q at *
  have same : members (s.process p) = (s.process p).reader.channelReaders ++ waiting rest := by
    rw [members,serial]
    rfl
  have fewer : members q = (s.process p).reader.channelReaders.eraseP (fun c => c.id == id) ++ waiting rest := by
    rw [members,serial',channelReaders]
  refine distinct.sublist ?_ (fun list member => ?_) (fun other last found => ?_)
  · rw [fewer,same]
    exact List.Sublist.append List.eraseP_sublist (List.Sublist.refl _)
  · rcases rmp with rmp | rmp
    · exact Or.inl (rmp ▸ member)
    · rw [rmp,List.mem_append,List.mem_singleton] at member
      exact member
  · rw [left] at found
    dsimp only at found
    split at found
    next present =>
      by_cases own : other = id
      · subst own
        obtain ⟨c,inside,equal⟩ := List.any_eq_true.mp present
        obtain rfl := beq_iff_eq.mp equal
        have all := distinct.distinct
        rw [same,List.map_append] at all
        obtain ⟨listed,_,apart⟩ := List.nodup_append.mp all
        refine Or.inr ⟨distinct.fresh c (by rw [same]; exact List.mem_append_left _ inside),?_⟩
        rw [fewer,List.map_append,List.mem_append,not_or]
        exact ⟨not_mem_eraseP listed,fun later => apart _ (List.mem_map_of_mem inside) _ later rfl⟩
      · rw [Function.update_of_ne own] at found
        exact Or.inl found
    next => exact Or.inl found

theorem distinct_step {a : Action} (inv : Inv size s) (recent : Recent s a)
    (distinct : ∀ p, Distinct s.clock (s.process p)) (stepped : next s a = some t) (p : Nat) :
    Distinct t.clock (t.process p) := by
  have quiet (same : Quiet s t) (kept : KeepsTasks s t) : Distinct t.clock (t.process p) :=
    (distinct p).mono kept.clock (kept.reader p) (same.process p).left
  have perform (q : Nat) (rest : List (SerialTask ChannelReader)) (task : SerialTask ChannelReader)
      (changed : Distinct s.clock ((s.perform q rest task).process q)) :
      Distinct (s.perform q rest task).clock ((s.perform q rest task).process p) := by
    obtain ⟨clock,_,others⟩ := perform_frame s q rest task
    rw [clock]
    by_cases own : p = q
    · exact own ▸ changed
    · rw [(others p own).1]
      exact distinct p
  have stocked := stocked_step inv.config (fun p => inv.stocked p) stepped
  cases effect stepped with
  | quiet same _ kept => exact quiet same kept
  | gaveUp _ _ _ same _ kept => exact quiet same kept
  | wrote =>
    rw [State.process_wrote]
    exact (distinct p).mono le_rfl rfl rfl
  | @created q c _ new =>
    refine State.forall_set (P := fun _ => Distinct (s.clock + 1)) ?_ (fun p _ => ?_) p
    · refine (distinct q).created new ?_ rfl rfl
      rw [members,members,waiting_append,← List.append_assoc]
      rfl
    · exact (distinct p).mono (Nat.le_succ _) rfl rfl
  | @queued q task _ old =>
    refine State.forall_set (P := fun _ => Distinct s.clock) ?_ (fun p _ => distinct p) p
    refine (distinct q).sublist ?_ (fun _ member => Or.inl member) (fun _ _ found => Or.inl found)
    have none : waiting [task] = [] := by
      cases task with
      | addChannelReader c => exact absurd rfl (old c)
      | _ => rfl
    rw [members,members,waiting_append,none,List.append_nil]
  | @added q c rest serial => exact perform q rest _ (distinct_kept (distinct q) serial nofun)
  | @removed q id rest serial => exact perform q rest _ (distinct_removed (distinct q) serial)
  | @ran q rest serial => exact perform q rest _ (distinct_kept (distinct q) serial nofun)
  | @read q passes _ captured rest rmp done =>
    have dispatched := (dispatched_readRmp inv recent stocked done).1
    rw [dispatched.clock]
    by_cases own : p = q
    · subst own
      refine (distinct p).sublist ?_ (fun list member => Or.inl ?_) (fun id last found => Or.inl ?_)
      · rw [members,members,dispatched.channelReaders,dispatched.serial]
      · rw [dispatched.rmp] at member
        rw [rmp]
        exact List.mem_cons_of_mem _ member
      · rwa [dispatched.left] at found
    · rw [dispatched.others p own]
      exact distinct p

theorem reachable_distinct {allowed : State → Action → Prop} (only : ∀ s a, allowed s a → Recent s a)
    (reached : Reachable ((sys size).restrict allowed) s) (p : Nat) : Distinct s.clock (s.process p) := by
  revert p
  refine reached.invariant_with (Inv size) (fun s => ∀ p, Distinct s.clock (s.process p)) ?_
    (fun s => reachable_inv only) ?_
  · rintro s ⟨rb,info,_,_,rfl⟩ p
    refine ⟨List.nodup_nil,?_,?_,?_⟩
    · rintro c ⟨⟩
    · rintro captured ⟨⟩
    · rintro id last ⟨⟩
  · rintro s a t inv distinct ⟨condition,stepped⟩
    exact distinct_step inv (only s a condition) distinct stepped

theorem Distinct.holds {clock : Nat} {q : Process} {c : ChannelReader} (distinct : Distinct clock q)
    (holds : Holds q c) : c.id < clock := by
  rcases holds with listed | ⟨captured,member,inside⟩
  · exact distinct.fresh c (List.mem_append_left _ listed)
  · exact (distinct.captured captured member).2 c inside

end
end Toroni.Tp.Pipeline
