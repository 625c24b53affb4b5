import Cartosheet.Property

namespace Cartosheet.Registry

def joins : List String := ["miter", "round", "bevel"]

def caps : List String := ["butt", "round", "square"]

def alignments : List String := ["left", "middle", "right"]

def mapProperties : List Property :=
  [⟨"map-bgcolor", .colorOrTransparent⟩]

def polygonProperties : List Property :=
  [⟨"polygon-fill", .color⟩,
   ⟨"polygon-gamma", .float⟩,
   ⟨"polygon-opacity", .float⟩,
   ⟨"polygon-meta-output", .string⟩,
   ⟨"polygon-meta-writer", .string⟩]

def lineProperties : List Property :=
  [⟨"line-color", .color⟩,
   ⟨"line-width", .float⟩,
   ⟨"line-opacity", .float⟩,
   ⟨"line-join", .keyword joins⟩,
   ⟨"line-cap", .keyword caps⟩,
   ⟨"line-dasharray", .numberList⟩,
   ⟨"line-meta-output", .string⟩,
   ⟨"line-meta-writer", .string⟩]

def outlineProperties : List Property :=
  [⟨"outline-color", .color⟩,
   ⟨"outline-width", .float⟩,
   ⟨"outline-opacity", .float⟩,
   ⟨"outline-join", .keyword joins⟩,
   ⟨"outline-cap", .keyword caps⟩,
   ⟨"outline-dasharray", .numberList⟩,
   ⟨"outline-meta-output", .string⟩,
   ⟨"outline-meta-writer", .string⟩]

def inlineProperties : List Property :=
  [⟨"inline-color", .color⟩,
   ⟨"inline-width", .float⟩,
   ⟨"inline-opacity", .float⟩,
   ⟨"inline-join", .keyword joins⟩,
   ⟨"inline-cap", .keyword caps⟩,
   ⟨"inline-dasharray", .numberList⟩,
   ⟨"inline-meta-output", .string⟩,
   ⟨"inline-meta-writer", .string⟩]

def textProperties : List Property :=
  [⟨"text-anchor-dx", .integer⟩,
   ⟨"text-anchor-dy", .integer⟩,
   ⟨"text-align", .keyword alignments⟩,
   ⟨"text-vertical-align", .keyword ["top", "middle", "bottom"]⟩,
   ⟨"text-justify-align", .keyword alignments⟩,
   ⟨"text-transform", .keyword ["uppercase", "lowercase"]⟩,
   ⟨"text-force-odd-labels", .boolean⟩,
   ⟨"text-face-name", .string⟩,
   ⟨"text-fontset", .string⟩,
   ⟨"text-size", .integer⟩,
   ⟨"text-ratio", .unsupported⟩,
   ⟨"text-wrap-width", .integer⟩,
   ⟨"text-spacing", .integer⟩,
   ⟨"text-character-spacing", .integer⟩,
   ⟨"text-line-spacing", .integer⟩,
   ⟨"text-label-position-tolerance", .integer⟩,
   ⟨"text-max-char-angle-delta", .integer⟩,
   ⟨"text-fill", .color⟩,
   ⟨"text-halo-fill", .color⟩,
   ⟨"text-halo-radius", .integer⟩,
   ⟨"text-dx", .integer⟩,
   ⟨"text-dy", .integer⟩,
   ⟨"text-avoid-edges", .boolean⟩,
   ⟨"text-min-distance", .integer⟩,
   ⟨"text-allow-overlap", .boolean⟩,
   ⟨"text-placement", .keyword ["point", "line"]⟩,
   ⟨"text-meta-output", .string⟩,
   ⟨"text-meta-writer", .string⟩]

def pointProperties : List Property :=
  [⟨"point-file", .uri⟩,
   ⟨"point-width", .integer⟩,
   ⟨"point-height", .integer⟩,
   ⟨"point-type", .unsupported⟩,
   ⟨"point-allow-overlap", .boolean⟩,
   ⟨"point-meta-output", .string⟩,
   ⟨"point-meta-writer", .string⟩]

def rasterProperties : List Property :=
  [⟨"raster-opacity", .float⟩,
   ⟨"raster-mode", .keyword
     ["normal", "grain_merge", "grain_merge2", "multiply", "multiply2", "divide", "divide2",
      "screen", "hard_light"]⟩,
   ⟨"raster-scaling", .keyword ["fast", "bilinear", "bilinear8"]⟩]

def polygonPatternProperties : List Property :=
  [⟨"polygon-pattern-file", .uri⟩,
   ⟨"polygon-pattern-width", .integer⟩,
   ⟨"polygon-pattern-height", .integer⟩,
   ⟨"polygon-pattern-type", .unsupported⟩,
   ⟨"polygon-pattern-meta-output", .string⟩,
   ⟨"polygon-pattern-meta-writer", .string⟩]

def linePatternProperties : List Property :=
  [⟨"line-pattern-file", .uri⟩,
   ⟨"line-pattern-width", .integer⟩,
   ⟨"line-pattern-height", .integer⟩,
   ⟨"line-pattern-type", .unsupported⟩,
   ⟨"line-pattern-meta-output", .string⟩,
   ⟨"line-pattern-meta-writer", .string⟩]

def shieldProperties : List Property :=
  [⟨"shield-name", .unsupported⟩,
   ⟨"shield-face-name", .string⟩,
   ⟨"shield-fontset", .string⟩,
   ⟨"shield-size", .integer⟩,
   ⟨"shield-fill", .color⟩,
   ⟨"shield-min-distance", .integer⟩,
   ⟨"shield-spacing", .integer⟩,
   ⟨"shield-character-spacing", .integer⟩,
   ⟨"shield-line-spacing", .integer⟩,
   ⟨"shield-text-dx", .integer⟩,
   ⟨"shield-text-dy", .integer⟩,
   ⟨"shield-file", .uri⟩,
   ⟨"shield-width", .integer⟩,
   ⟨"shield-height", .integer⟩,
   ⟨"shield-type", .unsupported⟩,
   ⟨"shield-meta-output", .string⟩,
   ⟨"shield-meta-writer", .string⟩]

/-- The properties of every stylesheet. -/
def standard : Registry :=
  ⟨mapProperties ++ polygonProperties ++ lineProperties ++ outlineProperties ++ inlineProperties
    ++ textProperties ++ pointProperties ++ rasterProperties ++ polygonPatternProperties
    ++ linePatternProperties ++ shieldProperties⟩

end Cartosheet.Registry
