import Narrative.Text.Blank
import Narrative.Text.Case

/-!
This module contains the closed vocabularies of a script: tones of voice, units of temperature,
kinds of weather, and kinds of item. Each value has one canonical name.
-/

namespace Narrative

def findNamed? (name : α → String) (values : List α) (text : String) : Option α :=
  values.find? fun value => name value == Text.lowercase (Text.trimmed text)

inductive Tone where
  | normal
  | murmur
  | whisper
  | shout
  | scream
deriving Repr, DecidableEq, Inhabited

namespace Tone

def name : Tone → String
  | normal => "normal"
  | murmur => "murmur"
  | whisper => "whisper"
  | shout => "shout"
  | scream => "scream"

def all : List Tone :=
  [normal, murmur, whisper, shout, scream]

def ofName? (text : String) : Option Tone :=
  findNamed? name all text

end Tone

inductive TemperatureUnits where
  | celsius
  | fahrenheit
deriving Repr, DecidableEq, Inhabited

namespace TemperatureUnits

def name : TemperatureUnits → String
  | celsius => "celsius"
  | fahrenheit => "fahrenheit"

def all : List TemperatureUnits :=
  [celsius, fahrenheit]

def ofName? (text : String) : Option TemperatureUnits :=
  findNamed? name all text

end TemperatureUnits

inductive Weather where
  | clear
  | drizzle
  | lightRain
  | rain
  | heavyRain
  | thunderstorm
  | snow
  | atmosphere
  | clouds
  | extreme
  | additional
deriving Repr, DecidableEq, Inhabited

namespace Weather

def name : Weather → String
  | clear => "clear"
  | drizzle => "drizzle"
  | lightRain => "lightrain"
  | rain => "rain"
  | heavyRain => "heavyrain"
  | thunderstorm => "thunderstorm"
  | snow => "snow"
  | atmosphere => "atmosphere"
  | clouds => "clouds"
  | extreme => "extreme"
  | additional => "additional"

def all : List Weather :=
  [clear, drizzle, lightRain, rain, heavyRain, thunderstorm, snow, atmosphere, clouds, extreme,
    additional]

def ofName? (text : String) : Option Weather :=
  findNamed? name all text

end Weather

inductive ItemKind where
  | character
  | location
  | sequence
deriving Repr, DecidableEq

namespace ItemKind

def name : ItemKind → String
  | character => "character"
  | location => "location"
  | sequence => "sequence"

def all : List ItemKind :=
  [character, location, sequence]

def ofName? (text : String) : Option ItemKind :=
  all.find? fun kind => kind.name == text

end ItemKind

end Narrative
