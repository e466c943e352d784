/-!
# Texts as bytes

A text is kept in a file as the bytes of its UTF-8 encoding.
-/

namespace BeamEnvelope

def bytesOf (text : String) : List UInt8 := text.toUTF8.data.toList

end BeamEnvelope
