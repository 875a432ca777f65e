import Mathlib.Data.List.Nodup
import Toroni.Java.Subscribers
import Toroni.Library.Stretch

/-! The stays of channel readers in the list of a Java reader, and what they have been handed, through
each task. -/
namespace Toroni.Java.Subscribers
open Tp (Invocation SerialTask handed waiting)

def known (q : Client) : List Nat :=
  q.members.map (fun m => m.reader.id) ++ (waiting q.serial).map ChannelReader.id

def Member.stop (m : Member) (q : Client) : Nat := m.last.getD q.read

structure Served (log : List (List UInt8)) (q : Client) (m : Member) : Prop where
  first : m.first ≤ m.since
  stretch : Stretch (hears m.reader) log (inbox q m.reader) m.first (m.stop q)

structure Good (clock : Nat) (log : List (List UInt8)) (cursor : Option Rmp.Broadcast.Cursor) (q : Client) :
    Prop where
  follows : match cursor with
    | none => q.reader.channelReaders = []
    | some c => q.reader.channelReaders ≠ [] ∧ c.next = q.read
  inside : q.read ≤ log.length
  distinct : (known q).Nodup
  fresh : ∀ id ∈ known q, id < clock
  listed : q.reader.channelReaders = (q.members.filter (fun m => m.last.isNone)).map Member.reader
  served : ∀ m ∈ q.members, Served log q m
  called : ∀ call ∈ q.invoked, ∃ m ∈ q.members, call.reader = m.reader

section
variable {clock clock' i : Nat} {log more : List (List UInt8)} {cursor : Option Rmp.Broadcast.Cursor}
  {q : Client} {m : Member} {rest : List (SerialTask ChannelReader)}

theorem Served.grow (served : Served log q m) : Served (log ++ more) q m := by
  obtain ⟨first,stretch⟩ := served
  exact ⟨first,stretch.grow more⟩

theorem Good.grow (good : Good clock log cursor q) (later : clock ≤ clock') :
    Good clock' (log ++ more) cursor q := by
  refine ⟨good.follows,?_,good.distinct,?_,good.listed,fun m member => (good.served m member).grow,good.called⟩
  · have := good.inside
    rw [List.length_append]
    omega
  · exact fun id member => (good.fresh id member).trans_le later

theorem Good.unique (good : Good clock log cursor q) {m m' : Member} (member : m ∈ q.members)
    (other : m' ∈ q.members) (same : m.reader.id = m'.reader.id) : m = m' := by
  obtain ⟨apart,_,_⟩ := List.nodup_append.mp good.distinct
  exact List.inj_on_of_nodup_map apart member other same

theorem Good.distinctList (good : Good clock log cursor q) :
    (q.reader.channelReaders.map ChannelReader.id).Nodup := by
  rw [good.listed,List.map_map]
  exact (List.nodup_append.mp good.distinct).1.sublist ((List.filter_sublist).map _)

/-- A task that waits on the first queue. -/
theorem Good.enqueued {task : SerialTask ChannelReader} (good : Good clock log cursor q) (later : clock ≤ clock')
    (new : ∀ id ∈ (waiting [task]).map ChannelReader.id, clock ≤ id ∧ id < clock') :
    Good clock' log cursor { q with serial := q.serial ++ [task] } := by
  have grown : known { q with serial := q.serial ++ [task] } =
      known q ++ (waiting [task]).map ChannelReader.id := by
    rw [known,Tp.waiting_append,List.map_append,← List.append_assoc]
    rfl
  refine ⟨good.follows,good.inside,?_,?_,good.listed,fun m member => ?_,good.called⟩
  · rw [grown]
    refine List.nodup_append.mpr ⟨good.distinct,?_,?_⟩
    · cases task with
      | addChannelReader c => exact List.nodup_singleton _
      | removeChannelReader id | run => exact List.nodup_nil
    · rintro id old id' added rfl
      have := good.fresh id old
      have := (new id added).1
      omega
  · rw [grown]
    intro id member
    rcases List.mem_append.mp member with old | added
    · exact (good.fresh id old).trans_le later
    · exact (new id added).2
  · obtain ⟨first,stretch⟩ := good.served m member
    exact ⟨first,stretch⟩

theorem Good.live (good : Good clock log cursor q) (listed : m.reader ∈ q.reader.channelReaders)
    (member : m ∈ q.members) : m.last = none := by
  rw [good.listed] at listed
  obtain ⟨m',inside,same⟩ := List.mem_map.mp listed
  obtain ⟨other,live⟩ := List.mem_filter.mp inside
  rw [← good.unique other member (congrArg ChannelReader.id same)]
  exact Option.isNone_iff_eq_none.mp live

theorem Good.closed (good : Good clock log cursor q) (empty : q.reader.channelReaders = [])
    (member : m ∈ q.members) : ∃ last, m.last = some last := by
  rw [good.listed,List.map_eq_nil_iff,List.filter_eq_nil_iff] at empty
  have gone := empty m member
  rw [Option.isNone_iff_eq_none] at gone
  exact Option.ne_none_iff_exists'.mp gone

theorem Good.silent (good : Good clock log cursor q) {c : ChannelReader}
    (absent : c.id ∉ q.members.map (fun m => m.reader.id)) : inbox q c = [] := by
  apply Tp.handed_none
  intro call inside same
  obtain ⟨m,member,own⟩ := good.called call inside
  rw [own] at same
  exact absent (same ▸ List.mem_map_of_mem member)

/-- The position of the reader and of those in its list when one more comes. -/
theorem Good.added {c : ChannelReader} {reader : Reader} (good : Good clock log cursor q)
    (serial : q.serial = .addChannelReader c :: rest)
    (list : reader.channelReaders = q.reader.channelReaders ++ [c]) :
    let read := if q.reader.channelReaders = [] then log.length else q.read
    Good clock log (if q.reader.channelReaders = [] then some ⟨log.length,false⟩ else cursor)
      { q with
        reader := reader
        serial := rest
        read := read
        members := q.members ++ [⟨c,log.length,read,none⟩] } := by
  intro read
  have within : read ≤ log.length := by
    have := good.inside
    dsimp only [read]
    split <;> omega
  have same : known { q with
      reader := reader
      serial := rest
      read := read
      members := q.members ++ [⟨c,log.length,read,none⟩] } = known q := by
    rw [known,known,serial,List.map_append,List.append_assoc]
    rfl
  have fresh : c.id ∉ q.members.map (fun m => m.reader.id) := by
    have distinct := good.distinct
    rw [known,serial] at distinct
    exact fun old => (List.nodup_append.mp distinct).2.2 _ old _ List.mem_cons_self rfl
  refine ⟨?_,within,by rw [same]; exact good.distinct,by rw [same]; exact good.fresh,?_,?_,?_⟩
  · by_cases opens : q.reader.channelReaders = []
    · rw [if_pos opens]
      exact ⟨by rw [list]; simp,(if_pos opens).symm⟩
    · have follows := good.follows
      rw [if_neg opens]
      split at follows
      next => exact absurd follows opens
      next d =>
        refine ⟨by rw [list]; simp,follows.2.trans (if_neg opens).symm⟩
  · rw [list,good.listed,List.filter_append,List.map_append]
    rfl
  · intro m member
    rcases List.mem_append.mp member with old | new
    · obtain ⟨first,stretch⟩ := good.served m old
      have stop : m.stop { q with
          reader := reader
          serial := rest
          read := read
          members := q.members ++ [⟨c,log.length,read,none⟩] } = m.stop q := by
        by_cases opens : q.reader.channelReaders = []
        · obtain ⟨last,gone⟩ := good.closed opens old
          rw [Member.stop,Member.stop,gone]
          rfl
        · simp only [Member.stop,read,if_neg opens]
      exact ⟨first,by rw [stop]; exact stretch⟩
    · obtain rfl := List.mem_singleton.mp new
      refine ⟨within,?_⟩
      change Stretch (hears c) log (inbox q c) read read
      rw [good.silent fresh]
      exact .start within
  · intro call inside
    obtain ⟨m,member,own⟩ := good.called call inside
    exact ⟨m,List.mem_append_left _ member,own⟩

theorem Good.removed {id : Nat} {reader : Reader} (good : Good clock log cursor q)
    (serial : q.serial = .removeChannelReader id :: rest)
    (list : reader.channelReaders = q.reader.channelReaders.eraseP (fun c => c.id == id)) :
    Good clock log (if reader.channelReaders = [] then none else cursor) { q with
      reader := reader
      serial := rest
      members := q.members.map (fun (m : Member) =>
        if m.reader.id = id ∧ m.last = none then { m with last := some q.read } else m) } := by
  have readers (m : Member) : (if m.reader.id = id ∧ m.last = none then
      { m with last := some q.read } else m).reader = m.reader := by
    split <;> rfl
  have same : known { q with
      reader := reader
      serial := rest
      members := q.members.map (fun (m : Member) =>
        if m.reader.id = id ∧ m.last = none then { m with last := some q.read } else m) } = known q := by
    rw [known,known,serial,List.map_map]
    refine congrArg (fun ids => ids ++ (waiting rest).map ChannelReader.id) (List.map_congr_left (fun m _ => ?_))
    exact congrArg ChannelReader.id (readers m)
  refine ⟨?_,good.inside,by rw [same]; exact good.distinct,by rw [same]; exact good.fresh,?_,?_,?_⟩
  · by_cases empty : reader.channelReaders = []
    · rw [if_pos empty]
      exact empty
    · have follows := good.follows
      rw [if_neg empty]
      split at follows
      next =>
        rw [list,follows] at empty
        exact absurd rfl empty
      next d => exact ⟨empty,follows.2⟩
  · rw [list,Tp.eraseP_eq_filter good.distinctList,good.listed]
    generalize q.members = members
    induction members with
    | nil => rfl
    | cons m members ih =>
      rw [List.map_cons]
      by_cases live : m.last = none
      · by_cases own : m.reader.id = id
        · rw [if_pos ⟨own,live⟩,List.filter_cons_of_pos (by simp [live]),List.filter_cons_of_neg (by simp),
            List.map_cons,List.filter_cons_of_neg (by simpa using own)]
          exact ih
        · rw [if_neg (fun both => own both.1),List.filter_cons_of_pos (by simp [live]),
            List.filter_cons_of_pos (by simp [live]),List.map_cons,List.map_cons,
            List.filter_cons_of_pos (by simpa using own),ih]
      · rw [if_neg (fun both => live both.2),List.filter_cons_of_neg (by simpa using live),
          List.filter_cons_of_neg (by simpa using live)]
        exact ih
  · intro m' member
    obtain ⟨m,old,rfl⟩ := List.mem_map.mp member
    obtain ⟨first,stretch⟩ := good.served m old
    split
    next removed =>
      have stop : m.stop q = q.read := by rw [Member.stop,removed.2,Option.getD_none]
      rw [stop] at stretch
      exact ⟨first,stretch⟩
    next => exact ⟨first,stretch⟩
  · intro call inside
    obtain ⟨m,member,own⟩ := good.called call inside
    exact ⟨_,List.mem_map_of_mem member,own.trans (readers m).symm⟩

theorem Good.tasks {n failed : Nat} (good : Good clock log cursor q) (serial : waiting q.serial = waiting rest) :
    Good clock log cursor { q with
      serial := rest
      rmp := n
      failed := failed } := by
  have same : known { q with
      serial := rest
      rmp := n
      failed := failed } = known q := by
    rw [known,known,serial]
  refine ⟨good.follows,good.inside,by rw [same]; exact good.distinct,by rw [same]; exact good.fresh,
    good.listed,fun m member => ?_,good.called⟩
  obtain ⟨first,stretch⟩ := good.served m member
  exact ⟨first,stretch⟩

/-- The list is handed what is read, the others nothing. -/
theorem Good.read {c : Rmp.Broadcast.Cursor} {reader : Reader} {k n : Nat}
    {calls : List (Invocation ChannelReader)}
    (good : Good clock log (some c) q) (list : reader.channelReaders = q.reader.channelReaders)
    (bound : q.read + n ≤ log.length) (inside : ∀ call ∈ calls, call.reader ∈ q.reader.channelReaders)
    (hands : ∀ c ∈ q.reader.channelReaders,
      handed ChannelReader.id c.id calls = heard c ((log.drop q.read).take n)) (lost : Bool) :
    Good clock log (some ⟨q.read + n,lost⟩) { q with
      reader := reader
      rmp := k
      read := q.read + n
      invoked := q.invoked ++ calls } := by
  obtain ⟨some_,_⟩ := good.follows
  have before (m : Member) : inbox { q with
      reader := reader
      rmp := k
      read := q.read + n
      invoked := q.invoked ++ calls } m.reader =
        inbox q m.reader ++ handed ChannelReader.id m.reader.id calls := by
    rw [inbox,Tp.handed_append]
    rfl
  have listed (call : Invocation ChannelReader) (member : call ∈ calls) : ∃ m ∈ q.members, call.reader = m.reader := by
    have among := inside call member
    rw [good.listed] at among
    obtain ⟨m,found,same⟩ := List.mem_map.mp among
    exact ⟨m,(List.mem_filter.mp found).1,same.symm⟩
  refine ⟨⟨list ▸ some_,rfl⟩,bound,good.distinct,good.fresh,list.trans good.listed,fun m member => ?_,?_⟩
  · obtain ⟨first,stretch⟩ := good.served m member
    cases stay : m.last with
    | none =>
      have here : m.reader ∈ q.reader.channelReaders := by
        rw [good.listed]
        exact List.mem_map_of_mem (List.mem_filter.mpr ⟨member,by simp [stay]⟩)
      rw [Member.stop,stay,Option.getD_none] at stretch
      refine ⟨first,?_⟩
      rw [before,hands m.reader here,Member.stop,stay,Option.getD_none]
      exact stretch.pass bound
    | some last =>
      have none : handed ChannelReader.id m.reader.id calls = [] := by
        apply Tp.handed_none
        intro call found same
        obtain ⟨m',other,own⟩ := listed call found
        rw [own] at same
        obtain rfl := good.unique other member same
        have live := good.live (own ▸ inside call found) member
        rw [stay] at live
        contradiction
      rw [Member.stop,stay,Option.getD_some] at stretch
      refine ⟨first,?_⟩
      rw [before,none,List.append_nil,Member.stop,stay,Option.getD_some]
      exact stretch
  · intro call member
    rcases List.mem_append.mp member with old | new
    · exact good.called call old
    · exact listed call new

end

end Toroni.Java.Subscribers
