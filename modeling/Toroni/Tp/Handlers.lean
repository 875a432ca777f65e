import Mathlib.Data.List.Nodup
import Toroni.Tp.TopicMsgBinary

/-! The tasks on the first queue of a reader, and the calls of the handlers of its channel readers, which
are of one implementation or the other and told apart by a number. -/
namespace Toroni.Tp
open TopicMsgBinaryDeserializer

inductive SerialTask (ρ : Type)
  | addChannelReader (c : ρ)
  | removeChannelReader (id : Nat)
  | run

/-- `index` is a history variable: the number of the message in the order in which messages were
written. -/
structure Invocation (ρ : Type) where
  reader : ρ
  index : Nat
  data : List UInt8
  deriving DecidableEq

variable {ρ : Type}

def waiting : List (SerialTask ρ) → List ρ
  | [] => []
  | .addChannelReader c :: serial => c :: waiting serial
  | _ :: serial => waiting serial

def dispatch (filter : ρ → Filtered) (index : Nat) : List ρ → Option (List (Invocation ρ))
  | [] => some []
  | c :: channelReaders =>
    match filter c with
    | .accepted payload => (dispatch filter index channelReaders).map (fun calls => ⟨c,index,payload⟩ :: calls)
    | .rejected => dispatch filter index channelReaders
    | .outOfRange | .assertionFailed => none

def handed (key : ρ → Nat) (id : Nat) (calls : List (Invocation ρ)) : List (List UInt8) :=
  (calls.filter (fun call => key call.reader == id)).map Invocation.data

section
variable {filter : ρ → Filtered} {index : Nat} {channelReaders : List ρ} {calls : List (Invocation ρ)}
  {key : ρ → Nat} {c : ρ} {id : Nat}

theorem waiting_append (first rest : List (SerialTask ρ)) :
    waiting (first ++ rest) = waiting first ++ waiting rest := by
  induction first with
  | nil => rfl
  | cons task first ih => cases task <;> simp [waiting,ih]

theorem eraseP_eq_filter (distinct : (channelReaders.map key).Nodup) :
    channelReaders.eraseP (fun c => key c == id) = channelReaders.filter (fun c => key c != id) := by
  induction channelReaders with
  | nil => rfl
  | cons c channelReaders ih =>
    obtain ⟨fresh,distinct⟩ := List.nodup_cons.mp distinct
    by_cases same : key c = id
    · rw [List.eraseP_cons_of_pos (by simpa using same),List.filter_cons_of_neg (by simpa using same),eq_comm]
      apply List.filter_eq_self.mpr
      intro d member
      exact bne_iff_ne.mpr (fun equal => fresh (same.trans equal.symm ▸ List.mem_map_of_mem member))
    · rw [List.eraseP_cons_of_neg (by simpa using same),List.filter_cons_of_pos (by simpa using same),ih distinct]

theorem not_mem_eraseP (distinct : (channelReaders.map key).Nodup) :
    id ∉ (channelReaders.eraseP (fun c => key c == id)).map key := by
  rw [eraseP_eq_filter distinct]
  intro member
  obtain ⟨c,inside,same⟩ := List.mem_map.mp member
  have away := (List.mem_filter.mp inside).2
  rw [same] at away
  simp at away

theorem handed_append (first rest : List (Invocation ρ)) :
    handed key id (first ++ rest) = handed key id first ++ handed key id rest := by
  rw [handed,List.filter_append,List.map_append]
  rfl

theorem handed_none (absent : ∀ call ∈ calls, key call.reader ≠ id) : handed key id calls = [] := by
  rw [handed,List.map_eq_nil_iff,List.filter_eq_nil_iff]
  intro call inside same
  exact absent call inside (beq_iff_eq.mp same)

theorem mem_dispatch (done : dispatch filter index channelReaders = some calls) {call : Invocation ρ}
    (member : call ∈ calls) :
    call.reader ∈ channelReaders ∧ call.index = index ∧ filter call.reader = .accepted call.data := by
  induction channelReaders generalizing calls with
  | nil =>
    cases Option.some.inj done
    contradiction
  | cons c rest ih =>
    simp only [dispatch] at done
    split at done
    next payload accepted =>
      obtain ⟨later,dispatched,rfl⟩ := Option.map_eq_some_iff.mp done
      rcases List.mem_cons.mp member with rfl | member
      · exact ⟨List.mem_cons_self,rfl,accepted⟩
      · obtain ⟨inside,same⟩ := ih dispatched member
        exact ⟨List.mem_cons_of_mem _ inside,same⟩
    next =>
      obtain ⟨inside,same⟩ := ih done member
      exact ⟨List.mem_cons_of_mem _ inside,same⟩
    next => contradiction
    next => contradiction

/-- Parsing a message fails for some channel reader, or each is called for it. -/
theorem dispatch_some (parses : ∀ c ∈ channelReaders, filter c = .rejected ∨ ∃ data, filter c = .accepted data) :
    ∃ calls, dispatch filter index channelReaders = some calls := by
  induction channelReaders with
  | nil => exact ⟨[],rfl⟩
  | cons c channelReaders ih =>
    obtain ⟨later,dispatched⟩ := ih (fun d member => parses d (List.mem_cons_of_mem _ member))
    rcases parses c List.mem_cons_self with rejected | ⟨data,accepted⟩
    · exact ⟨later,by rw [dispatch,rejected]; exact dispatched⟩
    · exact ⟨⟨c,index,data⟩ :: later,by rw [dispatch,accepted]; exact congrArg (Option.map _) dispatched⟩

theorem filter_dispatch (done : dispatch filter index channelReaders = some calls)
    (distinct : (channelReaders.map key).Nodup) (member : c ∈ channelReaders) {payload : List UInt8}
    (accepted : filter c = .accepted payload) :
    calls.filter (fun call => key call.reader == key c) = [⟨c,index,payload⟩] := by
  induction channelReaders generalizing calls with
  | nil => contradiction
  | cons head rest ih =>
    obtain ⟨fresh,distinct⟩ := List.nodup_cons.mp distinct
    by_cases same : key head = key c
    · have others : c ∉ rest := fun inside => fresh (same ▸ List.mem_map_of_mem inside)
      obtain rfl := (List.mem_cons.mp member).resolve_right others
      simp only [dispatch,accepted] at done
      obtain ⟨later,dispatched,rfl⟩ := Option.map_eq_some_iff.mp done
      have none : later.filter (fun call => key call.reader == key c) = [] := by
        refine List.filter_eq_nil_iff.mpr (fun call inside equal => fresh ?_)
        have known := List.mem_map_of_mem (f := key) (mem_dispatch dispatched inside).1
        rwa [beq_iff_eq.mp equal] at known
      rw [List.filter_cons_of_pos (by simp),none]
    · have inside : c ∈ rest := (List.mem_cons.mp member).resolve_left (fun equal => same (by rw [equal]))
      simp only [dispatch] at done
      split at done
      next =>
        obtain ⟨later,dispatched,rfl⟩ := Option.map_eq_some_iff.mp done
        rw [List.filter_cons_of_neg (by simpa using same)]
        exact ih dispatched distinct inside
      next => exact ih done distinct inside
      next => contradiction
      next => contradiction

/-- A channel reader in the list is called with what the filter lets through. -/
theorem handed_dispatch (done : dispatch filter index channelReaders = some calls)
    (distinct : (channelReaders.map key).Nodup) (member : c ∈ channelReaders) :
    handed key (key c) calls = (filter c).payload.toList := by
  cases filtered : filter c with
  | accepted payload =>
    rw [handed,filter_dispatch done distinct member filtered]
    rfl
  | rejected | outOfRange | assertionFailed =>
    apply handed_none
    intro call inside same
    obtain ⟨listed,_,accepted⟩ := mem_dispatch done inside
    have own : call.reader = c := List.inj_on_of_nodup_map distinct listed member same
    rw [own,filtered] at accepted
    contradiction

end
end Toroni.Tp
