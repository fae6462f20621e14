import HttpProto.Buffers.Basic
import HttpProto.Buffers.CircularBuffer
import HttpProto.Buffers.BufferArray
import HttpProto.Chunk
import HttpProto.Rfc.Chunked
import HttpProto.Serializer.Basic
import HttpProto.Serializer.Prepare
import HttpProto.Serializer.Ring
import HttpProto.Serializer.Source
import HttpProto.Serializer.Consume
import HttpProto.Session
import HttpProto.ExpectContinue
import HttpProto.Lifecycle
import HttpProto.Compression
import HttpProto.StreamHandle
import HttpProto.SourceFraming
import HttpProto.BuffersFraming
import HttpProto.StreamFraming
import HttpProto.Reachable
import HttpProto.Views
import HttpProto.FilterInput
import HttpProto.CompressedFraming
import HttpProto.CompressedFinish
import HttpProto.Workspace
import HttpProto.Loop
import HttpProto.SourceProgress
import HttpProto.StreamProgress
import HttpProto.BuffersProgress
