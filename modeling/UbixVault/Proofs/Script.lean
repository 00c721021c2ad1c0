/-
What a script of calls does to the store.

Whatever else happens, a value is found under a key only if it was there at the start or
was written on the way.
-/
import UbixVault.Lib.Events
import UbixVault.Proofs.Outside

namespace UbixVault

open Program

variable {env : Env} {allowed : World → Call → Prop} {w w' : World} {k : List ((c : Call) × Reply c)}
  {key : Key} {value : Bytes}

/-- One call: what is found afterwards was there, or is what the call wrote. -/
theorem lookup_answer {c : Call} {r : Reply c} (hanswer : env.answer w c = (r, w'))
    (hfound : w'.store.lookup key = some value) :
    w.store.lookup key = some value ∨
      (⟨c, r⟩ : (c : Call) × Reply c) = ⟨.put key value, .ok ()⟩ := by
  by_cases hreads : c.Reads
  · have hstore : (env.answer w c).2.store = w.store := Env.answer_reads hreads
    rw [hanswer] at hstore
    exact .inl (hstore ▸ hfound)
  cases c with
  | put key' value' =>
    rcases Env.answer_put_cases env w key' value' with h | ⟨e, h⟩
    · cases h.symm.trans hanswer
      by_cases hkey : key = key'
      · subst hkey
        rw [World.write_store, Finmap.lookup_insert] at hfound
        cases hfound
        exact .inr rfl
      · rw [World.write_store, Finmap.lookup_insert_of_ne _ hkey] at hfound
        exact .inl hfound
    · cases h.symm.trans hanswer
      exact .inl hfound
  | delete key' =>
    rcases Env.answer_delete_cases env w key' with h | ⟨e, h⟩
    · cases h.symm.trans hanswer
      by_cases hkey : key = key'
      · subst hkey
        rw [World.write_store, Finmap.lookup_erase] at hfound
        cases hfound
      · rw [World.write_store, Finmap.lookup_erase_ne hkey] at hfound
        exact .inl hfound
    · cases h.symm.trans hanswer
      exact .inl hfound
  | _ => exact absurd ⟨by nofun, by nofun⟩ hreads

/-- What is found in the end was there at the start, or was written. -/
theorem lookup_of_replies (hk : Replies env.answer allowed w k w')
    (hfound : w'.store.lookup key = some value) :
    w.store.lookup key = some value ∨ ⟨.put key value, .ok ()⟩ ∈ k := by
  have hkeeps := hk.preserves
    (I := fun s => s.store.lookup key = some value →
      w.store.lookup key = some value ∨ ⟨.put key value, .ok ()⟩ ∈ k) ?_ fun h => .inl h
  · exact hkeeps hfound
  · intro c r hmem s s' hanswer ih hs'
    rcases lookup_answer hanswer hs' with hs | heq
    · exact ih hs
    · exact .inr (heq ▸ hmem)

/-- What a call finds is what is stored. -/
theorem lookup_of_get {o : Option Bytes} (hanswer : env.answer w (.get key) = (.ok o, w')) :
    w.store.lookup key = o ∧ w'.store = w.store := by
  rcases Env.answer_get_cases env w key with h | ⟨e, h⟩
  · cases h.symm.trans hanswer
    exact ⟨rfl, rfl⟩
  · cases h.symm.trans hanswer

/-- What was deleted is gone. -/
theorem lookup_of_delete (hanswer : env.answer w (.delete key) = (.ok (), w')) :
    w'.store.lookup key = none := by
  rcases Env.answer_delete_cases env w key with h | ⟨e, h⟩
  · cases h.symm.trans hanswer
    exact Finmap.lookup_erase _ _
  · cases h.symm.trans hanswer

/-! ### Events of a run with a lock -/

section Locked

open Program.Locked

variable {ι : Type} {b : Bool} {s : World × Bool}
  {events : List (ι × (op : Locked Call) × Locked.Reply Reply op)}

theorem lookup_of_events (hreplies : Replies (handler env.answer) Waits (w, b) (events.map Prod.snd) s)
    (hfound : s.1.store.lookup key = some value) :
    w.store.lookup key = some value ∨ ∃ m, (m, ⟨.call (.put key value), .ok ()⟩) ∈ events := by
  rcases lookup_of_replies (replies_called hreplies) hfound with h | hmem
  · exact .inl h
  · obtain ⟨⟨m, e⟩, hmem, rfl⟩ := List.mem_map.mp (mem_called.mp hmem)
    exact .inr ⟨m, hmem⟩

end Locked

end UbixVault
