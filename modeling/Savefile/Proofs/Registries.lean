import Mathlib.Algebra.Group.Nat.Defs
import Savefile.Codec.Registry
import Savefile.Proofs.Members
import Savefile.Proofs.Result

/-!
# What a registry remembers

Of the calls that are made of a registry only those that install a codec change it, and each changes
it under its own name alone. So the codec under a name is the last one that was installed there, and
the version of the name is the number of them, whatever other calls came between.
-/
namespace Savefile

namespace Registry

/-- What can be asked of a registry. -/
inductive Call where
  | register (name : String) (document : List UInt8)
  | set (name : String) (codec : Codec)
  | get (name : String)
  | version (name : String)
  | decode (name : String) (data : List UInt8)

/-- What a registry answers. -/
inductive Answer where
  | installed (version : Nat)
  | refused (e : RegisterError)
  | codec (found : Option Codec)
  | version (n : Nat)
  | record (result : Except (Stop LookupError) Record)

namespace Call

def name : Call → String
  | .register name _ => name
  | .set name _ => name
  | .get name => name
  | .version name => name
  | .decode name _ => name

/-- The codec that a call installs under its name, if it installs one. -/
def installs? (options : CodecOptions) : Call → Option Codec
  | .register _ document =>
    (Schema.parse document).toOption.bind fun s => (Codec.compile (some s) options).toOption
  | .set _ c => some c
  | _ => none

end Call

/-- The answer to a call, and the registry after it. -/
def perform (r : Registry) : Call → Answer × Registry
  | .register name document =>
    match r.register name document with
    | .ok r' => (.installed (r'.version name), r')
    | .error e => (.refused e, r)
  | .set name c => (.installed ((r.install name c).version name), r.install name c)
  | .get name => (.codec (r.get? name), r)
  | .version name => (.version (r.version name), r)
  | .decode name data => (.record (r.decode name data), r)

/-- The answers to calls one after the other, and the registry after them. -/
def run (r : Registry) : List Call → List Answer × Registry
  | [] => ([], r)
  | call :: calls =>
    ((r.perform call).1 :: ((r.perform call).2.run calls).1, ((r.perform call).2.run calls).2)

/-- The codecs that calls install under a name, oldest first. -/
def installs (options : CodecOptions) (name : String) (calls : List Call) : List Codec :=
  (calls.filter fun call => call.name == name).filterMap (·.installs? options)

section Step

variable {r r' : Registry} {call a b : Call} {name : String} {c : Codec}

theorem get?_install (r : Registry) (key name : String) (c : Codec) :
    (r.install key c).get? name = if name = key then some c else r.get? name :=
  lookup_insertMember key name c r.codecs

theorem counter_install (r : Registry) (key name : String) (c : Codec) :
    (r.install key c).counter name = if name = key then r.counter key + 1 else r.counter name := by
  unfold counter install
  rw [lookup_insertMember]
  split <;> rfl

/-- A document is installed as the codec that it gives, or refused because it gives none under the
options. -/
theorem register_cases (r : Registry) (name : String) (document : List UInt8) :
    (∃ c, (Call.register name document).installs? r.options = some c ∧
        r.register name document = .ok (r.install name c)) ∨
      (Call.register name document).installs? r.options = none ∧
        ∃ e, ∀ r' : Registry, r'.options = r.options → r'.register name document = .error e := by
  have hinstalls : (Call.register name document).installs? r.options =
      (Schema.parse document).toOption.bind fun s =>
        (Codec.compile (some s) r.options).toOption := rfl
  rw [hinstalls]
  unfold register
  cases Schema.parse document with
  | error e => exact .inr ⟨rfl, ⟨name, .malformed e⟩, fun _ _ => rfl⟩
  | ok s =>
    cases hc : Codec.compile (some s) r.options with
    | error e =>
      refine .inr ⟨congrArg Except.toOption hc, ⟨name, e⟩, ?_⟩
      intro r' hoptions
      simp only [hoptions, hc]
    | ok c => exact .inl ⟨c, congrArg Except.toOption hc, by simp only [hc]⟩

/-- A call that installs a codec answers with the new version of its name. -/
theorem perform_of_installs (h : call.installs? r.options = some c) :
    r.perform call =
      (.installed ((r.install call.name c).version call.name), r.install call.name c) := by
  cases call with
  | register name document =>
    rcases r.register_cases name document with ⟨c', hc', hregister⟩ | ⟨hnone, -⟩
    · rw [h] at hc'
      cases hc'
      simp only [perform, hregister, Call.name]
    · rw [h] at hnone
      cases hnone
  | set name c' =>
    cases h
    rfl
  | get name => cases h
  | version name => cases h
  | decode name data => cases h

/-- A call that installs nothing leaves the registry as it is. -/
theorem perform_of_none (h : call.installs? r.options = none) : (r.perform call).2 = r := by
  cases call with
  | register name document =>
    rcases r.register_cases name document with ⟨c', hc', -⟩ | ⟨-, e, he⟩
    · rw [h] at hc'
      cases hc'
    · simp only [perform, he r rfl]
  | set name c' => cases h
  | get name => rfl
  | version name => rfl
  | decode name data => rfl

theorem options_perform (r : Registry) (call : Call) : (r.perform call).2.options = r.options := by
  cases hc : call.installs? r.options with
  | none => rw [perform_of_none hc]
  | some c =>
    rw [perform_of_installs hc]
    rfl

theorem get?_perform (r : Registry) (call : Call) (name : String) :
    (r.perform call).2.get? name =
      if name = call.name then (call.installs? r.options).or (r.get? name) else r.get? name := by
  cases hc : call.installs? r.options with
  | none => rw [perform_of_none hc, Option.none_or, ite_self]
  | some c => rw [perform_of_installs hc, get?_install, Option.some_or]

theorem counter_perform (r : Registry) (call : Call) (name : String) :
    (r.perform call).2.counter name =
      if name = call.name ∧ (call.installs? r.options).isSome then r.counter name + 1
      else r.counter name := by
  cases hc : call.installs? r.options with
  | none => simp [perform_of_none hc]
  | some c =>
    rw [perform_of_installs hc, counter_install]
    by_cases hname : name = call.name
    · simp [hname]
    · simp [hname]

/-- The answer to a call depends on the options and on what is kept under its name. -/
theorem answer_congr (hoptions : r.options = r'.options)
    (hget : r.get? call.name = r'.get? call.name)
    (hcounter : r.counter call.name = r'.counter call.name) :
    (r.perform call).1 = (r'.perform call).1 := by
  cases hc : call.installs? r.options with
  | some c =>
    have hc' : call.installs? r'.options = some c := hoptions ▸ hc
    rw [perform_of_installs hc, perform_of_installs hc']
    simp only [version, counter_install, if_true, hcounter]
  | none =>
    cases call with
    | register name document =>
      rcases r.register_cases name document with ⟨c', hc', -⟩ | ⟨-, e, he⟩
      · rw [hc] at hc'
        cases hc'
      · simp only [perform, he r rfl, he r' hoptions.symm]
    | set name c => cases hc
    | get name => exact congrArg Answer.codec hget
    | version name => exact congrArg (fun n => Answer.version n.toNat) hcounter
    | decode name data =>
      have hget : r.get? name = r'.get? name := hget
      simp only [perform, decode, hget]

end Step

section Run

variable {r r' : Registry} {history : String → List Codec}

/-- Under each name there is the last codec of its history, and the version is the length of the
history, as far as a counter can tell. -/
structure Remembers (r : Registry) (history : String → List Codec) : Prop where
  codec : ∀ name, r.get? name = (history name).getLast?
  version : ∀ name, r.version name = (history name).length % 2 ^ 64

theorem remembers_empty (options : CodecOptions) : (empty options).Remembers fun _ => [] :=
  ⟨fun _ => rfl, fun _ => rfl⟩

theorem installs_append (options : CodecOptions) (name : String) (calls more : List Call) :
    installs options name (calls ++ more) =
      installs options name calls ++ installs options name more := by
  simp [installs]

theorem installs_singleton (options : CodecOptions) (name : String) (call : Call) :
    installs options name [call] =
      if name = call.name then (call.installs? options).toList else [] := by
  by_cases h : name = call.name
  · cases hc : call.installs? options <;> simp [installs, h, hc]
  · simp [installs, h, Ne.symm h]

/-- A call adds what it installs to the history of its name. -/
theorem Remembers.perform (h : r.Remembers history) (call : Call) :
    (r.perform call).2.Remembers fun name =>
      history name ++ installs r.options name [call] := by
  refine ⟨fun name => ?_, fun name => ?_⟩
  · rw [get?_perform, installs_singleton, h.codec]
    by_cases hname : name = call.name
    · cases call.installs? r.options <;> simp [hname]
    · simp [hname]
  · have hversion : (r.counter name).toNat = (history name).length % 2 ^ 64 := h.version name
    rw [Registry.version, counter_perform, installs_singleton]
    by_cases hname : name = call.name
    · subst hname
      cases call.installs? r.options with
      | none => simpa using hversion
      | some c => simp [UInt64.toNat_add, hversion]
    · simpa [hname] using hversion

theorem options_run (r : Registry) (calls : List Call) : (r.run calls).2.options = r.options := by
  induction calls generalizing r with
  | nil => rfl
  | cons call calls ih => exact (ih _).trans (options_perform r call)

/-- Calls add what they install to the histories of their names. -/
theorem Remembers.run (h : r.Remembers history) (calls : List Call) :
    (r.run calls).2.Remembers fun name => history name ++ installs r.options name calls := by
  induction calls generalizing r history with
  | nil => simpa [Registry.run, installs] using h
  | cons call calls ih =>
    have hrest := ih (h.perform call)
    simp only [options_perform, List.append_assoc, ← installs_append, List.singleton_append] at hrest
    exact hrest

theorem run_append (r : Registry) (calls more : List Call) :
    r.run (calls ++ more) =
      ((r.run calls).1 ++ ((r.run calls).2.run more).1, ((r.run calls).2.run more).2) := by
  induction calls generalizing r with
  | nil => rfl
  | cons call calls ih => rw [List.cons_append, run, run, ih, List.cons_append]

theorem length_run (r : Registry) (calls : List Call) : (r.run calls).1.length = calls.length := by
  induction calls generalizing r with
  | nil => rfl
  | cons call calls ih => simp [run, ih]

/-- The answer to each call is that of the registry after the calls before it. -/
theorem getElem?_run {calls : List Call} {i : Nat} {call : Call} (h : calls[i]? = some call) :
    (r.run calls).1[i]? = some ((r.run (calls.take i)).2.perform call).1 ∧
      (r.run (calls.take (i + 1))).2 = ((r.run (calls.take i)).2.perform call).2 := by
  obtain ⟨hi, hcall⟩ := List.getElem?_eq_some_iff.mp h
  have hsplit : calls = calls.take i ++ call :: calls.drop (i + 1) := by
    rw [← hcall, List.getElem_cons_drop, List.take_append_drop]
  have hlength : (r.run (calls.take i)).1.length = i := by
    rw [length_run, List.length_take, Nat.min_eq_left (Nat.le_of_lt hi)]
  constructor
  · rw [congrArg r.run hsplit, run_append, List.getElem?_append_right (Nat.le_of_eq hlength),
      hlength, Nat.sub_self]
    rfl
  · rw [List.take_add_one, h, run_append]
    rfl

/-- Two registries that no call can tell from each other. -/
structure Alike (r r' : Registry) : Prop where
  options : r.options = r'.options
  codec : ∀ name, r.get? name = r'.get? name
  counter : ∀ name, r.counter name = r'.counter name

theorem Alike.perform (h : r.Alike r') (call : Call) :
    (r.perform call).1 = (r'.perform call).1 ∧ (r.perform call).2.Alike (r'.perform call).2 := by
  refine ⟨answer_congr h.options (h.codec _) (h.counter _), ?_, fun name => ?_, fun name => ?_⟩
  · rw [options_perform, options_perform, h.options]
  · rw [get?_perform, get?_perform, h.options, h.codec]
  · rw [counter_perform, counter_perform, h.options, h.counter]

theorem Alike.run (h : r.Alike r') (calls : List Call) :
    (r.run calls).1 = (r'.run calls).1 ∧ (r.run calls).2.Alike (r'.run calls).2 := by
  induction calls generalizing r r' with
  | nil => exact ⟨rfl, h⟩
  | cons call calls ih =>
    obtain ⟨hanswer, hnext⟩ := h.perform call
    obtain ⟨hanswers, hlast⟩ := ih hnext
    exact ⟨by rw [Registry.run, Registry.run, hanswer, hanswers], hlast⟩

/-- A call is answered alike before and after a call under another name. -/
theorem answer_after_other {a b : Call} (h : a.name ≠ b.name) (r : Registry) :
    ((r.perform a).2.perform b).1 = (r.perform b).1 := by
  apply answer_congr
  · exact options_perform r a
  · rw [get?_perform, if_neg h.symm]
  · rw [counter_perform, if_neg fun hname => h hname.1.symm]

/-- Calls under different names can be made in either order. -/
theorem alike_swap {a b : Call} (h : a.name ≠ b.name) (r : Registry) :
    ((r.perform a).2.perform b).2.Alike ((r.perform b).2.perform a).2 := by
  refine ⟨?_, fun name => ?_, fun name => ?_⟩
  · simp only [options_perform]
  · simp only [get?_perform, options_perform]
    by_cases hb : name = b.name
    · simp [hb, h.symm]
    · simp [hb]
  · simp only [counter_perform, options_perform]
    by_cases hb : name = b.name
    · simp [hb, h.symm]
    · simp [hb]

end Run

/-- The answers to calls of a new registry. -/
def answers (options : CodecOptions) (calls : List Call) : List Answer :=
  ((empty options).run calls).1

/-- A new registry after calls. -/
def after (options : CodecOptions) (calls : List Call) : Registry := ((empty options).run calls).2

theorem options_after (options : CodecOptions) (calls : List Call) :
    (after options calls).options = options := options_run (empty options) calls

variable {options : CodecOptions}

theorem remembers_after (calls : List Call) :
    (after options calls).Remembers fun name => installs options name calls :=
  (remembers_empty options).run calls

theorem version_after {calls : List Call} {name : String}
    (h : (installs options name calls).length < 2 ^ 64) :
    (after options calls).version name = (installs options name calls).length := by
  rw [(remembers_after calls).version, Nat.mod_eq_of_lt h]

theorem decode_after (calls : List Call) (name : String) (data : List UInt8) :
    ((after options calls).decode name data = .error (.error (.notRegistered name)) ↔
        installs options name calls = []) ∧
      ∀ c, (installs options name calls).getLast? = some c →
        (after options calls).decode name data = (c.decode data).mapError (.map .decode) := by
  unfold decode
  rw [(remembers_after calls).codec, ← List.getLast?_eq_none_iff]
  cases (installs options name calls).getLast? with
  | none => simp
  | some c =>
    refine ⟨?_, ?_⟩
    · dsimp only
      cases c.decode data with
      | ok r => simp
      | error stop => cases stop <;> simp [Stop.map]
    · rintro _ ⟨⟩
      rfl

section Answers

variable {calls : List Call} {i : Nat} {call : Call}

theorem getElem?_answers (hi : calls[i]? = some call) :
    (answers options calls)[i]? = some ((after options (calls.take i)).perform call).1 :=
  (getElem?_run hi).1

theorem after_take_succ (hi : calls[i]? = some call) :
    after options (calls.take (i + 1)) = ((after options (calls.take i)).perform call).2 :=
  (getElem?_run hi).2

/-- A call that installs a codec answers with the version that its name has from then on. -/
theorem answer_of_installs {c : Codec} (hi : calls[i]? = some call)
    (hc : call.installs? options = some c) :
    (answers options calls)[i]? =
      some (.installed ((after options (calls.take (i + 1))).version call.name)) := by
  rw [← options_after options (calls.take i)] at hc
  rw [getElem?_answers hi, after_take_succ hi, perform_of_installs hc]

/-- A document that gives no codec is refused, and changes nothing. -/
theorem refused_of_none {name : String} {document : List UInt8}
    (hi : calls[i]? = some (.register name document))
    (hnone : (Call.register name document).installs? options = none) :
    (∃ e, (answers options calls)[i]? = some (.refused e)) ∧
      after options (calls.take (i + 1)) = after options (calls.take i) := by
  rw [← options_after options (calls.take i)] at hnone
  rw [getElem?_answers hi, after_take_succ hi, perform_of_none hnone]
  rcases (after options (calls.take i)).register_cases name document with ⟨c, hc, -⟩ | ⟨-, e, he⟩
  · rw [hnone] at hc
    cases hc
  · exact ⟨⟨e, by simp only [perform, he _ rfl]⟩, rfl⟩

end Answers

/-- Two neighbouring calls under different names can be swapped, and their answers with them; no other
answer changes, and neither does what is kept in the end. -/
theorem run_swap {a b : Call} (h : a.name ≠ b.name) (first last : List Call) :
    ∃ xs x y zs, xs.length = first.length ∧
      answers options (first ++ a :: b :: last) = xs ++ x :: y :: zs ∧
      answers options (first ++ b :: a :: last) = xs ++ y :: x :: zs ∧
      (after options (first ++ a :: b :: last)).Alike (after options (first ++ b :: a :: last)) := by
  unfold answers after
  rw [run_append, run_append]
  generalize hr : ((empty options).run first).2 = r
  obtain ⟨hanswers, halike⟩ := (alike_swap h r).run last
  refine ⟨((empty options).run first).1, (r.perform a).1, (r.perform b).1,
    (((r.perform a).2.perform b).2.run last).1, length_run _ _, ?_, ?_, halike⟩
  · simp only [run, answer_after_other h]
  · simp only [run, answer_after_other h.symm, hanswers]

/-- A registry remembers just the installs that succeeded. After any calls the version of a name is the
number of codecs installed under it, and each install answered with their number at its time; the
codec under the name is the last of them, and records are read with it. If there was none, there is
neither. A document that gives no codec changes nothing, and calls under different names can be made
in either order. -/
theorem registry_tracks_installs (options : CodecOptions) (calls : List Call) :
    (∀ name,
      ((installs options name calls).length < 2 ^ 64 →
        (after options calls).version name = (installs options name calls).length) ∧
      (after options calls).get? name = (installs options name calls).getLast? ∧
      ((after options calls).get? name = none ↔ installs options name calls = []) ∧
      ∀ data,
        ((after options calls).decode name data = .error (.error (.notRegistered name)) ↔
          installs options name calls = []) ∧
        ∀ c, (installs options name calls).getLast? = some c →
          (after options calls).decode name data = (c.decode data).mapError (.map .decode)) ∧
    (∀ i call c, calls[i]? = some call → call.installs? options = some c →
      (installs options call.name (calls.take (i + 1))).length < 2 ^ 64 →
      (answers options calls)[i]? =
        some (.installed (installs options call.name (calls.take (i + 1))).length)) ∧
    (∀ i name document, calls[i]? = some (.register name document) →
      (Call.register name document).installs? options = none →
      (∃ e, (answers options calls)[i]? = some (.refused e)) ∧
        after options (calls.take (i + 1)) = after options (calls.take i)) ∧
    ∀ first a b last, calls = first ++ a :: b :: last → a.name ≠ b.name →
      ∃ xs x y zs, xs.length = first.length ∧ answers options calls = xs ++ x :: y :: zs ∧
        answers options (first ++ b :: a :: last) = xs ++ y :: x :: zs ∧
        ∀ name, (after options (first ++ b :: a :: last)).get? name =
            (after options calls).get? name ∧
          (after options (first ++ b :: a :: last)).version name =
            (after options calls).version name := by
  refine ⟨?_, ?_, ?_, ?_⟩
  · intro name
    refine ⟨version_after, (remembers_after calls).codec name, ?_, decode_after calls name⟩
    rw [(remembers_after calls).codec, List.getLast?_eq_none_iff]
  · intro i call c hi hc hlength
    rw [answer_of_installs hi hc, version_after hlength]
  · exact fun i name document => refused_of_none
  · rintro first a b last rfl hne
    obtain ⟨xs, x, y, zs, hlength, hanswers, hswapped, halike⟩ := run_swap hne first last
    refine ⟨xs, x, y, zs, hlength, hanswers, hswapped, fun name => ?_⟩
    exact ⟨(halike.codec name).symm, congrArg UInt64.toNat (halike.counter name).symm⟩

/-- Two documents under one name, with one that gives no codec and another name between them. -/
theorem registry_tracks_installs_interleaved :
    ∃ calls : List Call, calls.map Call.name = ["a", "b", "a", "b", "a"] ∧
      (after .strict calls).version "a" = 2 ∧ (after .strict calls).version "b" = 1 ∧
      (∃ c, (installs .strict "a" calls).getLast? = some c ∧ c.schema.root.name = "second" ∧
        (after .strict calls).get? "a" = some c ∧
        (after .strict calls).decode "a" [7] = (c.decode [7]).mapError (.map .decode)) ∧
      (after .strict calls).get? "c" = none ∧
      (answers .strict calls)[4]? = some (.installed 2) ∧
      (∃ e, (answers .strict calls)[2]? = some (.refused e)) ∧
      after .strict (calls.take 3) = after .strict (calls.take 2) ∧
      ∃ swapped : List Call, swapped.map Call.name = ["b", "a", "a", "b", "a"] ∧
        (after .strict swapped).version "a" = (after .strict calls).version "a" := by
  let one : Call := .register "a" "items:\n- id: x\n  type: u8".toUTF8.toList
  let other : Call := .register "b" "items:\n- id: x\n  type: u8".toUTF8.toList
  let bad : Call := .register "a" "items: 5".toUTF8.toList
  let two : Call := .register "a" "meta:\n  id: second\nitems:\n- id: x\n  type: u8".toUTF8.toList
  have hcount : ∀ calls, calls = [one, other, bad, .version "b", two] →
      (installs .strict "a" calls).length = 2 ∧ (installs .strict "b" calls).length = 1 ∧
        (installs .strict "c" calls).length = 0 := by
    rintro _ rfl
    decide +kernel
  have hlast : ((installs .strict "a" [one, other, bad, .version "b", two]).getLast?.map
      fun c => c.schema.root.name) = some "second" := by decide +kernel
  have hbad : (bad.installs? .strict).isNone = true := by decide +kernel
  have htwo : (two.installs? .strict).isSome = true := by decide +kernel
  obtain ⟨c, hc, hroot⟩ := Option.map_eq_some_iff.mp hlast
  obtain ⟨c', hc'⟩ := Option.isSome_iff_exists.mp htwo
  generalize hcalls : [one, other, bad, Call.version "b", two] = calls at hc
  obtain ⟨ha, hb, hnone⟩ := hcount calls hcalls.symm
  obtain ⟨hnames, hanswers, hrefused, hswap⟩ := registry_tracks_installs .strict calls
  obtain ⟨xs, x, y, zs, -, -, -, hsame⟩ :=
    hswap [] one other [bad, .version "b", two] hcalls.symm (by decide)
  have htake : calls.take (4 + 1) = calls := by rw [← hcalls]; rfl
  have hfifth := hanswers 4 two c' (by rw [← hcalls]; rfl) hc'
  have hthird := hrefused 2 "a" _ (by rw [← hcalls]; rfl) (Option.isNone_iff_eq_none.mp hbad)
  rw [htake, show two.name = "a" from rfl, ha] at hfifth
  refine ⟨calls, by rw [← hcalls]; rfl, ?_, ?_, ⟨c, hc, hroot, ?_, ?_⟩, ?_, hfifth (by decide),
    hthird.1, hthird.2, [other, one, bad, .version "b", two], rfl, (hsame "a").2⟩
  · rw [(hnames "a").1 (by rw [ha]; decide), ha]
  · rw [(hnames "b").1 (by rw [hb]; decide), hb]
  · rw [(hnames "a").2.1, hc]
  · exact ((hnames "a").2.2.2 [7]).2 c hc
  · exact (hnames "c").2.2.1.mpr (List.length_eq_zero_iff.mp hnone)

end Registry

end Savefile
